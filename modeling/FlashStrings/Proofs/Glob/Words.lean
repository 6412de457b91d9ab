import FlashStrings.Glob.Pattern
import FlashStrings.Text.Class

/-!
# Patterns that begin with a word

The characters of a C name stand for themselves in a pattern.  A pattern that begins with
such a word is read as these characters and what stands behind them
(`Glob.tokens_of_parse_append`), and matches the texts that begin with the word and go on
with a match of the rest (`Glob.matchesText_map_char_append`).

The rest is read alone as it is read behind the word.  What the reader looks back at is the
character before a `**`, and whether one stands directly behind another; behind a word a `**`
is refused, so neither makes a difference.
-/

namespace FlashStrings

namespace Glob

variable {word : List Char} {found whole extra tokens : List Token}

/-! ## Words -/

/-- Characters of a name are read as they are, whatever was read before. -/
theorem readTokens_append (hword : ∀ c ∈ word, isNameChar c = true) (found : List Token)
    (position : Nat) (before : Option Char) (s : List Char) :
    readTokens found position before (word ++ s) =
      readTokens ((word.map .char).reverse ++ found) (position + word.length)
        (word.getLast?.or before) s := by
  induction word generalizing found position before with
  | nil => rfl
  | cons c word ih =>
    obtain ⟨hc, hword⟩ := List.forall_mem_cons.1 hword
    have hstar : c ≠ '*' := by rintro rfl; cases hc
    have hany : c ≠ '?' := by rintro rfl; cases hc
    have hset : c ≠ '[' := by rintro rfl; cases hc
    rw [List.cons_append, readTokens, ih hword, List.map_cons, List.reverse_cons,
      List.append_assoc, List.length_cons, Nat.add_assoc, Nat.add_comm 1, List.getLast?_cons,
      Option.or_some, Option.some_or]
    · rfl
    all_goals simp_all

/-! ## What stands behind a word -/

/-- What the reader has found shows whether a `**` stands directly behind another one. -/
def TellsComponents (found : List Token) : Prop := found ≠ [] ∧ found ≠ [.anyComponents]

theorem TellsComponents.cons (h : TellsComponents found) (token : Token) :
    TellsComponents (token :: found) :=
  ⟨List.cons_ne_nil _ _, fun heq => h.1 (List.cons.inj heq).2⟩

theorem tellsComponents_singleton {token : Token} (h : token ≠ .anyComponents) :
    TellsComponents [token] :=
  ⟨List.cons_ne_nil _ _, fun heq => h (List.singleton_inj.1 heq)⟩

theorem TellsComponents.pushComponents (h : TellsComponents found) :
    TellsComponents (pushComponents found) := by
  unfold Glob.pushComponents
  split
  · exact h
  · exact h.cons _

theorem TellsComponents.pushComponents_append (h : TellsComponents found) (extra : List Token) :
    Glob.pushComponents (found ++ extra) = Glob.pushComponents found ++ extra := by
  obtain ⟨hnil, hone⟩ := h
  match found with
  | [] => exact absurd rfl hnil
  | [token] => cases token <;> first | rfl | exact absurd rfl hone
  | token :: next :: found => cases token <;> rfl

/-- What was found long before may be left out: the rest of the text is read in the same
way without it. -/
theorem exists_readTokens_of_append {position : Nat} {before : Option Char} {s : List Char}
    (hread : readTokens whole position before s = .ok tokens) (hwhole : whole = found ++ extra)
    (hfound : TellsComponents found) (position' : Nat) :
    ∃ rest, readTokens found position' before s = .ok rest ∧ tokens = extra.reverse ++ rest := by
  fun_induction readTokens whole position before s generalizing found position' with
  | case1 whole =>
    obtain rfl := Except.ok.inj hread
    exact ⟨found.reverse, by rw [readTokens], by rw [hwhole, List.reverse_append]⟩
  | case2 | case3 | case6 | case9 => cases hread
  | case4 whole position before hbefore _ ih =>
    obtain ⟨rest, hrest, htokens⟩ := ih hread (hwhole ▸ hfound.pushComponents_append extra)
      hfound.pushComponents (position' + 2)
    refine ⟨rest, ?_, htokens⟩
    rw [readTokens, if_neg hbefore]
    exact hrest
  | case5 whole position before hbefore s _ ih =>
    obtain ⟨rest, hrest, htokens⟩ := ih hread (hwhole ▸ hfound.pushComponents_append extra)
      hfound.pushComponents (position' + 3)
    refine ⟨rest, ?_, htokens⟩
    rw [readTokens, if_neg hbefore]
    exact hrest
  | case7 whole position before s htriple hpair ih =>
    obtain ⟨rest, hrest, htokens⟩ := ih hread (by rw [hwhole, List.cons_append]) (hfound.cons _)
      (position' + 1)
    refine ⟨rest, ?_, htokens⟩
    rw [readTokens]
    · exact hrest
    · exact htriple
    · exact hpair
  | case8 whole position before s ih =>
    obtain ⟨rest, hrest, htokens⟩ := ih hread (by rw [hwhole, List.cons_append]) (hfound.cons _)
      (position' + 1)
    refine ⟨rest, ?_, htokens⟩
    rw [readTokens]
    exact hrest
  | case10 whole position before s token width hset ih =>
    obtain ⟨rest, hrest, htokens⟩ := ih hread (by rw [hwhole, List.cons_append]) (hfound.cons _)
      (position' + 1 + width)
    refine ⟨rest, ?_, htokens⟩
    rw [readTokens, hset]
    exact hrest
  | case11 whole position before c s htriple hpair hstar hany hset ih =>
    obtain ⟨rest, hrest, htokens⟩ := ih hread (by rw [hwhole, List.cons_append]) (hfound.cons _)
      (position' + 1)
    refine ⟨rest, ?_, htokens⟩
    rw [readTokens]
    · exact hrest
    · exact htriple
    · exact hpair
    · exact hstar
    · exact hany
    · exact hset

/-- A character set is read as one. -/
theorem exists_specs_of_charSet? {s : List Char} {token : Token} {width : Nat}
    (h : charSet? s = some (token, width)) :
    ∃ specs, token = .within specs ∨ token = .except specs := by
  unfold charSet? at h
  dsimp only at h
  split at h
  · cases h
  · split at h
    · cases h
    · split at h
      · exact ⟨_, .inr (Prod.mk.inj (Option.some.inj h)).1.symm⟩
      · exact ⟨_, .inl (Prod.mk.inj (Option.some.inj h)).1.symm⟩

/-- Behind a character that is no separator a text is read as it is read alone. -/
theorem exists_readTokens_of_behind {position : Nat} {before : Option Char} {s : List Char}
    (hread : readTokens whole position before s = .ok tokens)
    (hbefore : (before.isSome && before != some '/') = true) :
    ∃ rest, readTokens [] 0 none s = .ok rest ∧ tokens = whole.reverse ++ rest := by
  have hstep {token : Token} {position : Nat} {before : Option Char} {s : List Char}
      (hnext : readTokens (token :: whole) position before s = .ok tokens)
      (htoken : token ≠ .anyComponents) (position' : Nat) :
      ∃ rest, readTokens [token] position' before s = .ok rest ∧
        tokens = whole.reverse ++ rest :=
    exists_readTokens_of_append hnext rfl (tellsComponents_singleton htoken) position'
  -- Only the first step is looked at, so the induction hypotheses are not used.
  fun_induction readTokens whole position before s with
  | case1 =>
    obtain rfl := Except.ok.inj hread
    exact ⟨[], by rw [readTokens, List.reverse_nil], by rw [List.append_nil]⟩
  | case2 | case3 | case6 | case9 => cases hread
  | case4 whole position before hopen => exact absurd hbefore hopen
  | case5 whole position before hopen => exact absurd hbefore hopen
  | case7 whole position before s htriple hpair =>
    rw [readTokens]
    · exact hstep hread nofun _
    · exact htriple
    · exact hpair
  | case8 whole position before s =>
    rw [readTokens]
    exact hstep hread nofun _
  | case10 whole position before s token width hset =>
    obtain ⟨specs, rfl | rfl⟩ := exists_specs_of_charSet? hset
    all_goals rw [readTokens, hset]; exact hstep hread nofun _
  | case11 whole position before c s htriple hpair hstar hany hset =>
    rw [readTokens]
    · exact hstep hread nofun _
    · exact htriple
    · exact hpair
    · exact hstar
    · exact hany
    · exact hset

/-- A pattern that begins with a word is accepted only if its rest is, and consists of the
characters of the word and the tokens of the rest. -/
theorem tokens_of_parse_append {word rest : String} (hne : word ≠ "")
    (hword : ∀ c ∈ word.toList, isNameChar c = true) (h : parse (word ++ rest) = .ok tokens) :
    ∃ more, parse rest = .ok more ∧ tokens = word.toList.map .char ++ more := by
  have hlast : word.toList ≠ [] := fun hnil => hne (String.toList_inj.1 hnil)
  rw [parse, String.toList_append, readTokens_append hword, List.append_nil,
    List.getLast?_eq_some_getLast hlast, Option.some_or] at h
  have hslash : word.toList.getLast hlast ≠ '/' := fun heq => by
    have hchar := hword _ (List.getLast_mem hlast)
    rw [heq] at hchar
    cases hchar
  obtain ⟨more, hmore, htokens⟩ := exists_readTokens_of_behind h (by simp [hslash])
  exact ⟨more, hmore, by rw [htokens, List.reverse_reverse]⟩

/-- A word is read as its characters. -/
theorem parse_word {word : String} (hword : ∀ c ∈ word.toList, isNameChar c = true) :
    parse word = .ok (word.toList.map .char) := by
  have h := readTokens_append hword [] 0 none []
  rw [List.append_nil, readTokens, List.append_nil, List.reverse_reverse] at h
  exact h

/-! ## Matching -/

/-- A word in front of a pattern stands in front of what it matches. -/
theorem matchesText_map_char_append {s : List Char} :
    matchesText (word.map .char ++ tokens) s = true ↔
      ∃ rest, s = word ++ rest ∧ matchesText tokens rest = true := by
  induction word generalizing s with
  | nil => simp
  | cons c word ih =>
    cases s with
    | nil => simp [matchesText]
    | cons d s =>
      rw [List.map_cons, List.cons_append, matchesText, Bool.and_eq_true, beq_iff_eq, ih]
      constructor
      · rintro ⟨rfl, rest, rfl, hrest⟩
        exact ⟨rest, rfl, hrest⟩
      · rintro ⟨rest, heq, hrest⟩
        obtain ⟨rfl, rfl⟩ := List.cons.inj heq
        exact ⟨rfl, rest, rfl, hrest⟩

theorem matchesString_map_char_append {word text : String} :
    matchesString (word.toList.map .char ++ tokens) text = true ↔
      ∃ rest, text = word ++ rest ∧ matchesString tokens rest = true := by
  rw [matchesString, matchesText_map_char_append]
  constructor
  · rintro ⟨rest, htext, hrest⟩
    refine ⟨String.ofList rest, String.toList_inj.1 ?_, ?_⟩
    · rw [htext, String.toList_append, String.toList_ofList]
    · rwa [matchesString, String.toList_ofList]
  · rintro ⟨rest, rfl, hrest⟩
    exact ⟨rest.toList, String.toList_append, hrest⟩

/-- A word matches itself only. -/
theorem matchesString_word {word text : String} :
    matchesString (word.toList.map .char) text = true ↔ text = word := by
  rw [← List.append_nil (word.toList.map _), matchesString_map_char_append]
  constructor
  · rintro ⟨rest, rfl, hrest⟩
    have hnil : rest = "" := String.toList_inj.1 (List.isEmpty_iff.1 hrest)
    rw [hnil, String.append_empty]
  · rintro rfl
    exact ⟨"", String.append_empty.symm, rfl⟩

/-! ## Patterns as texts -/

/-- Whether a pattern can be read and matches a text. -/
def accepts (pattern text : String) : Bool :=
  match parse pattern with
  | .ok tokens => matchesString tokens text
  | .error _ => false

theorem accepts_eq {pattern : String} (h : parse pattern = .ok tokens) :
    accepts pattern = matchesString tokens := by
  funext text
  rw [accepts, h]

/-- A word accepts itself only. -/
theorem accepts_word {word text : String} (hword : ∀ c ∈ word.toList, isNameChar c = true) :
    accepts word text = (text == word) := by
  rw [accepts_eq (parse_word hword), Bool.eq_iff_iff, matchesString_word, beq_iff_eq]

/-- A word in front of a pattern that is accepted: the rest is accepted too, and the word
stands in front of what that matches. -/
theorem accepts_append {word rest : String} (hne : word ≠ "")
    (hword : ∀ c ∈ word.toList, isNameChar c = true) (h : parse (word ++ rest) = .ok tokens) :
    (∃ more, parse rest = .ok more) ∧ ∀ text, accepts (word ++ rest) text = true ↔
      ∃ tail, text = word ++ tail ∧ accepts rest tail = true := by
  obtain ⟨more, hmore, rfl⟩ := tokens_of_parse_append hne hword h
  refine ⟨⟨more, hmore⟩, fun text => ?_⟩
  rw [accepts_eq h, accepts_eq hmore]
  exact matchesString_map_char_append

end Glob

end FlashStrings
