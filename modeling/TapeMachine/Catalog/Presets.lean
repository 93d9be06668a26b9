namespace TapeMachine.Catalog

/-- Adds one to a binary number. -/
def binaryIncrement : List String := [
  "# Adds one to a binary number written most significant bit first.",
  "",
  "[METADATA]",
  "name: Binary Increment",
  "description: Adds 1 to a binary number",
  "category: decidable",
  "",
  "[CONFIG]",
  "initial_state: q0",
  "accept_states: qf",
  "blank_symbol: _",
  "",
  "[ALPHABET]",
  "input: 0, 1",
  "tape: 0, 1, _",
  "",
  "[TRANSITIONS]",
  "# Run to the right end of the number.",
  "q0, 0 -> 0, R, q0",
  "q0, 1 -> 1, R, q0",
  "q0, _ -> _, L, q1",
  "# Carry leftwards.",
  "q1, 0 -> 1, S, qf",
  "q1, 1 -> 0, L, q1",
  "q1, _ -> 1, S, qf",
  "",
  "[INPUT]",
  "1011"]

/-- Decides whether a word reads the same backwards. -/
def palindrome : List String := [
  "# Erases matching outer symbols until nothing (or a single symbol) is left.",
  "",
  "[METADATA]",
  "name: Palindrome Checker",
  "description: Decides whether a string over \x7ba, b\x7d is a palindrome",
  "category: decidable",
  "",
  "[CONFIG]",
  "initial_state: q0",
  "accept_states: qa",
  "reject_states: qr",
  "blank_symbol: _",
  "",
  "[ALPHABET]",
  "input: a, b",
  "tape: a, b, _",
  "",
  "[TRANSITIONS]",
  "# Erase the leftmost symbol and remember it.",
  "q0, a -> _, R, q1",
  "q0, b -> _, R, q2",
  "q0, _ -> _, S, qa",
  "# Run right, remembering an 'a'.",
  "q1, a -> a, R, q1",
  "q1, b -> b, R, q1",
  "q1, _ -> _, L, q3",
  "# Run right, remembering a 'b'.",
  "q2, a -> a, R, q2",
  "q2, b -> b, R, q2",
  "q2, _ -> _, L, q4",
  "# The rightmost symbol must be an 'a'.",
  "q3, a -> _, L, q5",
  "q3, b -> b, S, qr",
  "q3, _ -> _, S, qa",
  "# The rightmost symbol must be a 'b'.",
  "q4, b -> _, L, q5",
  "q4, a -> a, S, qr",
  "q4, _ -> _, S, qa",
  "# Return to the left end.",
  "q5, a -> a, L, q5",
  "q5, b -> b, L, q5",
  "q5, _ -> _, R, q0",
  "",
  "[INPUT]",
  "abba"]

/-- Adds two numbers in unary notation. -/
def unaryAddition : List String := [
  "# 111+11 becomes 11111: the plus turns into a 1 and the last 1 is erased.",
  "",
  "[METADATA]",
  "name: Unary Addition",
  "description: Adds two numbers written in unary (111+11 = 11111)",
  "category: computable",
  "",
  "[CONFIG]",
  "initial_state: q0",
  "accept_states: qf",
  "blank_symbol: _",
  "",
  "[ALPHABET]",
  "input: 1, +",
  "tape: 1, +, _",
  "",
  "[TRANSITIONS]",
  "q0, 1 -> 1, R, q0",
  "q0, + -> 1, R, q1",
  "q0, _ -> _, S, qf",
  "q1, 1 -> 1, R, q1",
  "q1, _ -> _, L, q2",
  "q2, 1 -> _, S, qf",
  "",
  "[INPUT]",
  "111+11"]

/-- Recognises two binary numbers around an operator. -/
def binaryMultiplication : List String := [
  "# Simplified: scans the two operands of a binary product without computing it.",
  "# Accepts inputs shaped like <bits>*<bits>.",
  "",
  "[METADATA]",
  "name: Binary Multiplication",
  "description: Recognises the operands of a binary multiplication (simplified scan)",
  "category: computable",
  "",
  "[CONFIG]",
  "initial_state: q0",
  "accept_states: qf",
  "reject_states: qr",
  "blank_symbol: _",
  "",
  "[ALPHABET]",
  "input: 0, 1, *",
  "tape: 0, 1, *, _",
  "",
  "[TRANSITIONS]",
  "# First operand.",
  "q0, 0 -> 0, R, q0",
  "q0, 1 -> 1, R, q0",
  "q0, * -> *, R, q1",
  "q0, _ -> _, S, qr",
  "# Second operand.",
  "q1, 0 -> 0, R, q1",
  "q1, 1 -> 1, R, q1",
  "q1, * -> *, S, qr",
  "q1, _ -> _, S, qf",
  "",
  "[INPUT]",
  "10*11"]

/-- Writes a copy of a word behind it. -/
def copyString : List String := [
  "# abc becomes abc#abc. Each original symbol is marked in upper case while its copy",
  "# is appended, then the marks are cleared.",
  "",
  "[METADATA]",
  "name: Copy String",
  "description: Copies a string over \x7ba, b, c\x7d after a # separator",
  "category: computable",
  "",
  "[CONFIG]",
  "initial_state: s",
  "accept_states: qf",
  "blank_symbol: _",
  "",
  "[ALPHABET]",
  "input: a, b, c",
  "tape: a, b, c, A, B, C, #, _",
  "",
  "[TRANSITIONS]",
  "# Write the separator after the input.",
  "s, a -> a, R, s",
  "s, b -> b, R, s",
  "s, c -> c, R, s",
  "s, _ -> #, L, r",
  "# Return to the start.",
  "r, a -> a, L, r",
  "r, b -> b, L, r",
  "r, c -> c, L, r",
  "r, # -> #, L, r",
  "r, _ -> _, R, q0",
  "# Mark the next symbol, or finish at the separator.",
  "q0, a -> A, R, ca",
  "q0, b -> B, R, cb",
  "q0, c -> C, R, cc",
  "q0, # -> #, L, u",
  "# Carry an 'a' to the end.",
  "ca, a -> a, R, ca",
  "ca, b -> b, R, ca",
  "ca, c -> c, R, ca",
  "ca, # -> #, R, ca",
  "ca, _ -> a, L, back",
  "# Carry a 'b' to the end.",
  "cb, a -> a, R, cb",
  "cb, b -> b, R, cb",
  "cb, c -> c, R, cb",
  "cb, # -> #, R, cb",
  "cb, _ -> b, L, back",
  "# Carry a 'c' to the end.",
  "cc, a -> a, R, cc",
  "cc, b -> b, R, cc",
  "cc, c -> c, R, cc",
  "cc, # -> #, R, cc",
  "cc, _ -> c, L, back",
  "# Walk back to the last mark.",
  "back, a -> a, L, back",
  "back, b -> b, L, back",
  "back, c -> c, L, back",
  "back, # -> #, L, back",
  "back, A -> A, R, q0",
  "back, B -> B, R, q0",
  "back, C -> C, R, q0",
  "# Clear the marks.",
  "u, A -> a, L, u",
  "u, B -> b, L, u",
  "u, C -> c, L, u",
  "u, _ -> _, R, qf",
  "",
  "[INPUT]",
  "abc"]

end TapeMachine.Catalog
