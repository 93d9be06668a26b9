import TapeMachine.Proofs.Modes
import TapeMachine.Proofs.Showing

namespace TapeMachine

theorem FileTree.decode_of_not_isValidUTF8 {bytes : ByteArray} (h : ¬ bytes.IsValidUTF8) :
    decode bytes = .error .notText := by
  have hread : String.fromUTF8? bytes = none := dif_neg h
  simp only [decode, hread]

theorem FileTree.exists_toUTF8_eq {bytes : ByteArray} (h : bytes.IsValidUTF8) :
    ∃ text : String, text.toUTF8 = bytes :=
  ⟨String.fromUTF8 bytes h, rfl⟩

namespace Catalog

variable {key : String}

theorem get_of_mem_keys (h : key ∈ keys) : ∃ preset, get key = .ok preset := by
  obtain ⟨preset, hpreset, hkey⟩ := List.mem_map.mp h
  cases hfind : presets.find? (·.key == key) with
  | some found => exact ⟨found, by rw [get, hfind, Option.elim_some]⟩
  | none => exact absurd (beq_iff_eq.mpr hkey) (List.find?_eq_none.mp hfind preset hpreset)

theorem get_of_not_mem_keys (h : key ∉ keys) : get key = .error (.unknownPreset key) := by
  cases hfind : presets.find? (·.key == key) with
  | some found =>
      have hfound : found ∈ presets := List.mem_of_find?_eq_some hfind
      have hkey := List.find?_some hfind
      refine absurd ?_ h
      rw [← beq_iff_eq.mp hkey]
      exact List.mem_map_of_mem hfound
  | none => rw [get, hfind, Option.elim_none]

end Catalog

namespace Command

variable {o : Options} {w : Sources} {mode : Mode} {text : String} {failure : Failure}

/-- The failures for want of a text to read a definition from: the file or the input cannot be
read or is no text, the file is too large, or no preset has the given key. -/
inductive Lacks (o : Options) (w : Sources) : Failure → Prop
  | unreadableFile {path : String} {fault : Fault} (named : o.file = some path)
      (read : w.file = .error fault) : Lacks o w (.definition (.unreadableFile path fault))
  | brokenFile {path : String} {bytes : ByteArray} (named : o.file = some path)
      (read : w.file = .ok bytes) (broken : ¬ bytes.IsValidUTF8) :
      Lacks o w (.definition (.unreadableFile path .notText))
  | oversizedFile {path text : String} (named : o.file = some path)
      (read : w.file = .ok text.toUTF8) (long : 65536 < text.utf8ByteSize) :
      Lacks o w (.definition (.oversizedFile path))
  | unknownPreset {key : String} (unnamed : o.file = none) (named : o.preset = some key)
      (unknown : key ∉ Catalog.keys) : Lacks o w (.definition (.unknownPreset key))
  | terminal (unnamed : o.file = none) (unset : o.preset = none) (read : w.input = none) :
      Lacks o w .noDefinition
  | unreadableInput {fault : Fault} (unnamed : o.file = none) (unset : o.preset = none)
      (read : w.input = some (.error fault)) : Lacks o w (.unreadableInput fault)
  | brokenInput {bytes : ByteArray} (unnamed : o.file = none) (unset : o.preset = none)
      (read : w.input = some (.ok bytes)) (broken : ¬ bytes.IsValidUTF8) :
      Lacks o w (.unreadableInput .notText)

/-- The text to read a definition from, and the mode to read it in. -/
inductive Supplies (o : Options) (w : Sources) : Mode → String → Prop
  | file {path text : String} (named : o.file = some path) (read : w.file = .ok text.toUTF8)
      (fits : text.utf8ByteSize ≤ 65536) : Supplies o w .normal text
  | preset {key : String} {preset : Preset} (unnamed : o.file = none)
      (named : o.preset = some key) (known : Catalog.get key = .ok preset) :
      Supplies o w .strict preset.source
  | input {text : String} (unnamed : o.file = none) (unset : o.preset = none)
      (read : w.input = some (.ok text.toUTF8)) : Supplies o w .normal text

theorem lacks_or_supplies (o : Options) (w : Sources) :
    (∃ failure, Lacks o w failure) ∨ ∃ mode text, Supplies o w mode text := by
  cases named : o.file with
  | some path =>
      cases read : w.file with
      | error fault => exact .inl ⟨_, .unreadableFile named read⟩
      | ok bytes =>
          by_cases hvalid : bytes.IsValidUTF8
          · obtain ⟨text, rfl⟩ := FileTree.exists_toUTF8_eq hvalid
            rcases Nat.lt_or_ge 65536 text.utf8ByteSize with long | fits
            · exact .inl ⟨_, .oversizedFile named read long⟩
            · exact .inr ⟨_, _, .file named read fits⟩
          · exact .inl ⟨_, .brokenFile named read hvalid⟩
  | none =>
      cases chosen : o.preset with
      | some key =>
          by_cases hkey : key ∈ Catalog.keys
          · obtain ⟨preset, known⟩ := Catalog.get_of_mem_keys hkey
            exact .inr ⟨_, _, .preset named chosen known⟩
          · exact .inl ⟨_, .unknownPreset named chosen hkey⟩
      | none =>
          cases read : w.input with
          | none => exact .inl ⟨_, .terminal named chosen read⟩
          | some result =>
              cases result with
              | error fault => exact .inl ⟨_, .unreadableInput named chosen read⟩
              | ok bytes =>
                  by_cases hvalid : bytes.IsValidUTF8
                  · obtain ⟨text, rfl⟩ := FileTree.exists_toUTF8_eq hvalid
                    exact .inr ⟨_, _, .input named chosen read⟩
                  · exact .inl ⟨_, .brokenInput named chosen read hvalid⟩

theorem definition_of_lacks (h : Lacks o w failure) : definition o w.supply = .error failure := by
  cases h with
  | unreadableFile named read =>
      simp only [definition, Sources.supply, named, read]
      rfl
  | brokenFile named read broken =>
      have hdecode := FileTree.decode_of_not_isValidUTF8 broken
      simp only [definition, Sources.supply, named, read, Except.bind, hdecode]
      rfl
  | oversizedFile named read long =>
      simp only [definition, Sources.supply, named, read, Except.bind, FileTree.decode_toUTF8,
        Definition.ofFile, if_pos (show _ > maxDefinitionSize from long)]
      rfl
  | unknownPreset unnamed named unknown =>
      have hget := Catalog.get_of_not_mem_keys unknown
      simp only [definition, unnamed, named, hget]
      rfl
  | terminal unnamed unset read =>
      simp only [definition, inputText, Sources.supply, unnamed, unset, read]
      rfl
  | unreadableInput unnamed unset read =>
      simp only [definition, inputText, Sources.supply, unnamed, unset, read]
      rfl
  | brokenInput unnamed unset read broken =>
      have hdecode := FileTree.decode_of_not_isValidUTF8 broken
      simp only [definition, inputText, Sources.supply, unnamed, unset, read, Option.map_some,
        Except.bind, hdecode]

theorem definition_of_supplies (h : Supplies o w mode text) :
    definition o w.supply = (Definition.parse mode text).mapError .definition := by
  cases h with
  | file named read fits =>
      simp only [definition, Sources.supply, named, read, Except.bind, FileTree.decode_toUTF8,
        Definition.ofFile, if_neg (show ¬ _ > maxDefinitionSize from Nat.not_lt.mpr fits)]
  | preset unnamed named known =>
      simp only [definition, unnamed, named, known]
      rfl
  | input unnamed unset read =>
      simp only [definition, inputText, Sources.supply, unnamed, unset, read, Option.map_some,
        Except.bind, FileTree.decode_toUTF8]

theorem respond_of_failure {s : Supply} (hlist : o.list = false) (hcheck : o.check = false)
    (h : definition o s = .error failure) :
    respond o s = ⟨1, "", "Error: " ++ failure.message ++ "\n"⟩ := by
  simp [respond, hlist, hcheck, h, failed]

/-- What the command answers about a run that ends in a given machine. -/
structure Answers (o : Options) (last : Machine) (r : Response) : Prop where
  halted : last.isHalted = true
  settled : last.status = .halted .accepted ∨ last.status = .halted .halted → r.exit = 0
  rejected : last.status = .halted .rejected → r.exit = 2
  timeout : last.status = .halted .timeout → r.exit = 3
  out : r.out =
    (if o.debug then String.join (blocks o.window last) else "") ++ summary o last
  err : r.err = ""

theorem answers_execute (o : Options) (m : Machine) (input : String) :
    Answers o ((m.loadTape input).run o.maxSteps) (execute o (m.loadTape input)) := by
  have hexit : ∀ outcome, ((m.loadTape input).run o.maxSteps).status = .halted outcome →
      (execute o (m.loadTape input)).exit = exitCode outcome := by
    intro outcome hstatus
    rw [execute_loadTape]
    exact congrArg exitCode (Machine.verdict_of_status hstatus)
  exact {
    halted := Machine.isHalted_run _ _
    settled := by
      rintro (hstatus | hstatus)
      · exact hexit .accepted hstatus
      · exact hexit .halted hstatus
    rejected := hexit .rejected
    timeout := hexit .timeout
    out := by rw [execute_loadTape]
    err := by rw [execute_loadTape] }

theorem sourceText_of_file {path : String} (named : o.file = some path)
    (read : w.file = .ok text.toUTF8) : sourceText o w.supply = .ok text := by
  simp only [sourceText, Sources.supply, named, read, Except.bind, FileTree.decode_toUTF8]
  rfl

theorem sourceText_of_input (unnamed : o.file = none) (unset : o.preset = none)
    (read : w.input = some (.ok text.toUTF8)) : sourceText o w.supply = .ok text := by
  simp only [sourceText, inputText, Sources.supply, unnamed, unset, read, Option.map_some,
    Except.bind, FileTree.decode_toUTF8]

theorem respond_file_eq_input {path : String} {w' : Sources} (fits : text.utf8ByteSize ≤ 65536)
    (read : w.file = .ok text.toUTF8) (read' : w'.input = some (.ok text.toUTF8)) :
    respond { o with file := some path, preset := none } w.supply =
      respond { o with file := none, preset := none } w'.supply := by
  have hfile : definition { o with file := some path, preset := none } w.supply = _ :=
    definition_of_supplies (.file rfl read fits)
  have hinput : definition { o with file := none, preset := none } w'.supply = _ :=
    definition_of_supplies (.input rfl rfl read')
  have hchecked : sourceText { o with file := some path, preset := none } w.supply = _ :=
    sourceText_of_file rfl read
  have hchecked' : sourceText { o with file := none, preset := none } w'.supply = _ :=
    sourceText_of_input rfl rfl read'
  simp only [respond, hfile, hinput, hchecked, hchecked']
  cases Definition.parse .normal text with
  | error e => rfl
  | ok d => rfl

/-- The command fails with the message of what keeps it from having a definition, and otherwise it
reports on the run of the machine that is defined; and a text of moderate size gives the same answer
in a file and on standard input. -/
theorem respond_whatever_source :
    (∀ (o : Options) (w : Sources), o.list = false → o.check = false →
      (∀ failure, Lacks o w failure →
        respond o w.supply = ⟨1, "", "Error: " ++ failure.message ++ "\n"⟩) ∧
      (∀ mode text e, Supplies o w mode text → Definition.parse mode text = .error e →
        respond o w.supply = ⟨1, "", "Error: " ++ e.message ++ "\n"⟩) ∧
      (∀ mode text d, Supplies o w mode text → Definition.parse mode text = .ok d →
        Answers o ((d.machine.loadTape (o.input.getD d.input)).run o.maxSteps)
          (respond o w.supply)) ∧
      ((∃ failure, Lacks o w failure) ∨ ∃ mode text, Supplies o w mode text)) ∧
    ∀ (o : Options) (path text : String) (w w' : Sources), text.utf8ByteSize ≤ 65536 →
      w.file = .ok text.toUTF8 → w'.input = some (.ok text.toUTF8) →
      respond { o with file := some path, preset := none } w.supply =
        respond { o with file := none, preset := none } w'.supply := by
  constructor
  · intro o w hlist hcheck
    refine ⟨?_, ?_, ?_, lacks_or_supplies o w⟩
    · intro failure hlacks
      exact respond_of_failure hlist hcheck (definition_of_lacks hlacks)
    · intro mode text e hsupplies hparse
      have hfailure := definition_of_supplies hsupplies
      rw [hparse] at hfailure
      exact respond_of_failure hlist hcheck hfailure
    · intro mode text d hsupplies hparse
      have hdefinition := definition_of_supplies hsupplies
      rw [hparse] at hdefinition
      rw [respond_of_definition hlist hcheck hdefinition]
      exact answers_execute o d.machine (o.input.getD d.input)
  · intro o path text w w' fits read read'
    exact respond_file_eq_input fits read read'

/-- A machine that rejects everything but a tape that starts with a one. -/
def gate : String :=
  Preset.textOf ["[config]", "initial_state: s", "accept_states: y", "reject_states: s",
    "[input]", "1", "[transitions]", "s, 1 -> 1, S, y"]

theorem gate_respond_whatever_source :
    respond { } (Sources.supply ⟨.error .notFound, none⟩) =
      ⟨1, "", "Error: no definition given: pass a FILE, use --preset, or pipe a definition on " ++
        "stdin\n"⟩ ∧
    respond { } (Sources.supply ⟨.error .notFound, some (.ok "".toUTF8)⟩) =
      ⟨1, "", "Error: Missing initial_state in [CONFIG]\n"⟩ ∧
    (∃ d, Definition.parse .normal gate = .ok d ∧
      Answers { input := some "" } ((d.machine.loadTape "").run none)
        (respond { input := some "" }
          (Sources.supply ⟨.error .notFound, some (.ok gate.toUTF8)⟩))) ∧
    respond { file := some "gate.tm", input := some "" }
        (Sources.supply ⟨.ok gate.toUTF8, none⟩) =
      respond { input := some "" } (Sources.supply ⟨.error .notFound, some (.ok gate.toUTF8)⟩) := by
  obtain ⟨hanswers, hsame⟩ := respond_whatever_source
  refine ⟨?_, ?_, ?_, ?_⟩
  · exact (hanswers { } _ rfl rfl).1 _ (.terminal rfl rfl rfl)
  · exact (hanswers { } _ rfl rfl).2.1 .normal "" _ (.input rfl rfl rfl) rfl
  · have hread : (Definition.parse .normal gate).toOption.isSome = true := by
      rw [gate, Preset.textOf, Definition.parse, String.toList_ofList]
      decide +kernel
    obtain ⟨d, hd⟩ := exists_ok_of_isSome hread
    exact ⟨d, hd, (hanswers { input := some "" } _ rfl rfl).2.2.1 .normal gate d
      (.input rfl rfl rfl) hd⟩
  · refine hsame { input := some "" } "gate.tm" gate _ _ ?_ rfl rfl
    rw [gate, Preset.utf8ByteSize_textOf]
    decide +kernel

end Command

end TapeMachine
