import FlashStrings.Glob.Expand
import FlashStrings.Proofs.Except
import FlashStrings.Proofs.Glob.Words
import FlashStrings.Proofs.Text.Trim

/-!
# The components of a pattern for paths

A pattern for paths is read component by component before anything is looked up
(`Glob.find_eq`).  A component is cut out between slashes, and the plain characters
of its tokens come from there (`Glob.mem_of_readTokens`), so a component without
wildcards is a text without slashes (`Glob.noSlash_of_patterns`).
-/

namespace FlashStrings

namespace Glob

variable {c : Char}

theorem char_mem_pushComponents {found : List Token} (h : .char c ∈ pushComponents found) :
    Token.char c ∈ found := by
  unfold pushComponents at h
  split at h
  · exact h
  · simpa using h

theorem ne_char_of_charSet? {s : List Char} {token : Token} {width : Nat}
    (h : charSet? s = some (token, width)) : token ≠ .char c := by
  obtain ⟨specs, rfl | rfl⟩ := exists_specs_of_charSet? h
  · exact nofun
  · exact nofun

/-- The plain characters among the tokens come from the pattern. -/
theorem mem_of_readTokens {found : List Token} {position : Nat} {before : Option Char}
    {s : List Char} {tokens : List Token} (h : readTokens found position before s = .ok tokens)
    (hc : .char c ∈ tokens) : .char c ∈ found ∨ c ∈ s := by
  fun_induction readTokens found position before s with
  | case1 =>
    obtain rfl := Except.ok.inj h
    exact .inl (List.mem_reverse.1 hc)
  | case2 | case3 | case6 | case9 => cases h
  | case4 found position before _ _ ih =>
    exact .inl (char_mem_pushComponents ((ih h).resolve_right List.not_mem_nil))
  | case5 found position before _ s _ ih =>
    exact (ih h).imp char_mem_pushComponents fun hs => by simp [hs]
  | case7 found position before s _ _ ih =>
    exact (ih h).imp (fun hf => by simpa using hf) (List.mem_cons_of_mem _)
  | case8 found position before s ih =>
    exact (ih h).imp (fun hf => by simpa using hf) (List.mem_cons_of_mem _)
  | case10 found position before s token width hset ih =>
    refine (ih h).imp (fun hf => ?_) fun hs => List.mem_cons_of_mem _ (List.drop_subset _ _ hs)
    exact (List.mem_cons.1 hf).resolve_left fun he => ne_char_of_charSet? hset he.symm
  | case11 found position before c' s _ _ _ _ _ ih =>
    rcases ih h with hf | hs
    · rcases List.mem_cons.1 hf with he | hf
      · obtain rfl := Token.char.inj he
        exact .inr List.mem_cons_self
      · exact .inl hf
    · exact .inr (List.mem_cons_of_mem _ hs)

/-! ## Components without wildcards -/

namespace PathPattern

theorem char_mem_of_plainText? {tokens : List Token} {text : String}
    (h : plainText? tokens = some text) (hc : c ∈ text.toList) : .char c ∈ tokens := by
  obtain ⟨chars, hchars, rfl⟩ := Option.map_eq_some_iff.1 h
  rw [String.toList_ofList] at hc
  induction tokens generalizing chars with
  | nil =>
    obtain rfl := Option.some.inj hchars
    cases hc
  | cons token tokens ih =>
    rw [List.mapM_cons, Option.bind_eq_bind] at hchars
    obtain ⟨c', hc', htail⟩ := Option.bind_eq_some_iff.1 hchars
    obtain ⟨rest, hrest, hcons⟩ := Option.bind_eq_some_iff.1 htail
    obtain rfl := Option.some.inj hcons
    rcases List.mem_cons.1 hc with rfl | hc
    · unfold plainText?.plainChar? at hc'
      split at hc'
      · obtain rfl := Option.some.inj hc'
        exact List.mem_cons_self
      · cases hc'
    · exact List.mem_cons_of_mem _ (ih rest hrest (congrArg (·.map String.ofList) hrest) hc)

theorem mem_of_mem_collapse {pattern : PathPattern} {patterns : List PathPattern}
    (h : pattern ∈ collapse patterns) : pattern ∈ patterns := by
  fun_induction collapse patterns with
  | case1 patterns ih => exact List.mem_cons_of_mem _ (ih h)
  | case2 first patterns _ ih =>
    rcases List.mem_cons.1 h with rfl | h
    · exact List.mem_cons_self
    · exact List.mem_cons_of_mem _ (ih h)
  | case3 => exact h

theorem plainText?_of_ofTokens {tokens : List Token} {text : String}
    (h : ofTokens tokens = plain text) : plainText? tokens = some text := by
  rw [ofTokens] at h
  split at h
  · cases h
  · split at h
    · next htext => rw [htext, PathPattern.plain.inj h]
    · cases h

end PathPattern

/-! ## Patterns for paths -/

/-- The components of a pattern for absolute paths. -/
def patterns (pattern : Path) : Except Error (List PathPattern) := do
  let _ ← readTokens [] 0 none pattern.text.toList
  let components ← (pathComponents pattern.text.toList).mapM (readTokens [] 0 none)
  return PathPattern.collapse (components.map PathPattern.ofTokens)

theorem find_eq (t : FileTree) (pattern : Path) :
    find t pattern = (patterns pattern).map fun components =>
      if pattern.text.toList.getLast? = some '/' then
        (expand t components ⟨"/"⟩).filter t.hasDirectory
      else expand t components ⟨"/"⟩ := by
  rw [find, patterns]
  cases readTokens [] 0 none pattern.text.toList with
  | error _ => rfl
  | ok _ =>
    cases (pathComponents pattern.text.toList).mapM (readTokens [] 0 none) with
    | error _ => rfl
    | ok _ => rfl

theorem noSlash_of_mem_pathComponents {text component : List Char}
    (h : component ∈ pathComponents text) : '/' ∉ component := by
  refine notMem_of_mem_cutAt (s := text.drop 1) ?_
  rw [pathComponents] at h
  split at h
  · exact (List.dropLast_sublist _).subset h
  · exact h

/-- A component without wildcards is a text without slashes. -/
theorem noSlash_of_patterns {pattern : Path} {components : List PathPattern}
    (h : patterns pattern = .ok components) {text : String} (hmem : .plain text ∈ components) :
    '/' ∉ text.toList := by
  rw [patterns] at h
  obtain ⟨_, -, h⟩ := bind_eq_ok h
  obtain ⟨read, hmap, h⟩ := bind_eq_ok h
  obtain rfl := Except.ok.inj h
  obtain ⟨tokens, htokens, hplain⟩ := List.mem_map.1 (PathPattern.mem_of_mem_collapse hmem)
  obtain ⟨component, hcomponent, hread⟩ := (mapM_eq_ok hmap).2 tokens htokens
  intro hslash
  have hchar := PathPattern.char_mem_of_plainText?
    (PathPattern.plainText?_of_ofTokens hplain) hslash
  exact noSlash_of_mem_pathComponents hcomponent
    ((mem_of_readTokens hread hchar).resolve_left List.not_mem_nil)

end Glob

end FlashStrings
