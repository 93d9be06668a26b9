import TapeMachine.Proofs.Sources

namespace TapeMachine.Catalog

variable {key : String} {lines : List String}

/-- The preset with a given key has a given machine. -/
def Builds (key : String) (m : Machine) : Prop :=
  ∃ preset, get key = .ok preset ∧ preset.build = .ok m

theorem nodup_sources : (sources.map Prod.fst).Nodup := by
  decide

theorem mem_of_get {preset : Preset} (h : get key = .ok preset) :
    preset ∈ presets ∧ preset.key = key := by
  cases hfind : presets.find? (·.key == key) with
  | none =>
      rw [get, hfind, Option.elim_none] at h
      cases h
  | some found =>
      rw [get, hfind, Option.elim_some] at h
      obtain rfl := Except.ok.inj h
      exact ⟨List.mem_of_find?_eq_some hfind, beq_iff_eq.mp (List.find?_some hfind :)⟩

theorem mem_keys_of_parse {d : Definition} (hmem : (key, lines) ∈ sources)
    (hparse : Definition.parse .strict (Preset.textOf lines) = .ok d) : key ∈ keys := by
  have hread : ∃ preset, Preset.ofSource key (Preset.textOf lines) = .ok preset ∧
      preset.key = key := by
    rw [Preset.ofSource, hparse]
    exact ⟨_, rfl, rfl⟩
  obtain ⟨preset, hpreset, hkey⟩ := hread
  refine List.mem_map.mpr ⟨preset, List.mem_filterMap.mpr ⟨_, hmem, ?_⟩, hkey⟩
  exact congrArg Except.toOption hpreset

/-- What is read from the characters of a text can be found by evaluation. -/
theorem builds_of_read {p : Program} (hmem : (key, lines) ∈ sources)
    (hread : (Definition.ofChars .strict
      (lines.flatMap fun line => line.toList ++ ['\n'])).toOption.map
        Definition.program = some p) : Builds key p.start := by
  obtain ⟨d, hd, rfl⟩ := exists_ok_of_map_eq_some hread
  have hparse : Definition.parse .strict (Preset.textOf lines) = .ok d := by
    rw [Preset.textOf, Definition.parse, String.toList_ofList]
    exact hd
  obtain ⟨preset, hget⟩ := get_of_mem_keys (mem_keys_of_parse hmem hparse)
  obtain ⟨hpreset, hkey⟩ := mem_of_get hget
  obtain ⟨⟨entry, hentry, hnamed, hsource⟩, -⟩ := exists_of_mem_presets hpreset
  obtain rfl : entry = (key, lines) :=
    List.inj_on_of_nodup_map nodup_sources hentry hmem (hnamed.symm.trans hkey)
  refine ⟨preset, hget, ?_⟩
  rw [Preset.build, Preset.definition, hsource, hparse]
  rfl

end TapeMachine.Catalog
