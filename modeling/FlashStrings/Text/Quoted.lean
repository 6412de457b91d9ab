import FlashStrings.Text.Class

/-!
# Quoted literals

A literal begins with a single or double quote and runs to the next occurrence
of that quote.  A backslash takes the next character with it, whatever it is.  A
newline without a backslash, or the end of the text, leaves the literal
unclosed.

`quoted?` reads the part after the opening quote.  `quoted?_eq_some` says that
it cuts the text at a closing quote and loses nothing.
-/

namespace FlashStrings

/-- The content of a literal whose opening quote `q` has been read, and what
follows its closing quote.  Nothing when the literal is not closed. -/
def quoted? (q : Char) : List Char → Option (List Char × List Char)
  | [] => none
  | ['\\'] => none
  | '\\' :: c :: s => (quoted? q s).map fun (body, rest) => ('\\' :: c :: body, rest)
  | c :: s =>
    if c = '\n' then none
    else if c = q then some ([], s)
    else (quoted? q s).map fun (body, rest) => (c :: body, rest)

theorem quoted?_eq_some {q : Char} {s body rest : List Char}
    (h : quoted? q s = some (body, rest)) : s = body ++ q :: rest := by
  fun_induction quoted? q s generalizing body with
  | case1 => simp at h
  | case2 => simp at h
  | case3 c s ih =>
    obtain ⟨⟨b, r⟩, hb, he⟩ := Option.map_eq_some_iff.1 h
    simp only [Prod.mk.injEq] at he
    obtain ⟨rfl, rfl⟩ := he
    simp [ih hb]
  | case4 => simp at h
  | case5 => simp_all
  | case6 c s _ _ _ _ ih =>
    obtain ⟨⟨b, r⟩, hb, he⟩ := Option.map_eq_some_iff.1 h
    simp only [Prod.mk.injEq] at he
    obtain ⟨rfl, rfl⟩ := he
    simp [ih hb]

theorem quoted?_length {q : Char} {s body rest : List Char}
    (h : quoted? q s = some (body, rest)) : s.length = body.length + rest.length + 1 := by
  rw [quoted?_eq_some h]
  simp only [List.length_append, List.length_cons]
  omega

example : quoted? '"' "a\\\"b\", c".toList = some ("a\\\"b".toList, ", c".toList) := by decide
example : quoted? '"' "a\nb\"".toList = none := by decide

end FlashStrings
