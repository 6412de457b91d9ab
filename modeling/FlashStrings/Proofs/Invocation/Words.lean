import Mathlib.Data.List.Basic
import FlashStrings.Config.Basic
import FlashStrings.Proofs.Invocation.ReadBack
import FlashStrings.Proofs.Text.Trim
import FlashStrings.Source.Extract

/-!
# Words in an argument text

A name is *used* in an argument text when it stands there as a word, outside of
literals and not as a part of another name (`Argument.Uses`).  The search for names
goes piece by piece and keeps the word that has begun.  It finds one just when one is
used (`Argument.mentions_iff`), since every piece that belongs to no name parts the
words before it from those behind it (`Argument.uses_append_cons`).

Every list of pieces begins with the characters of a name, if only with none
(`Argument.exists_name`), and this name is taken from its text
(`Argument.takeWhile_text`).
-/

namespace FlashStrings

theorem isCName_iff {text : String} :
    isCName text = true ↔ text.toList.head?.any isNameStart = true ∧
      ∀ c ∈ text.toList, isNameChar c = true := by
  rw [isCName, Bool.and_eq_true, List.all_eq_true]

theorem isCName_ofList {s : List Char} :
    isCName (String.ofList s) = true ↔
      s.head?.any isNameStart = true ∧ ∀ c ∈ s, isNameChar c = true := by
  rw [isCName_iff, String.toList_ofList]

theorem ne_nil_of_isCName {s : List Char} (h : isCName (String.ofList s) = true) : s ≠ [] := by
  rintro rfl
  cases h

/-- A character of a name outside of literals. -/
def Piece.inName : Piece → Bool
  | .char c => isNameChar c
  | .literal .. => false

namespace Argument

variable {ps qs : List Piece} {p : Piece} {word : List Char} {names : List (List Char)}

/-- The word stands among the pieces, and no name goes on at either end of it. -/
def Uses (ps : List Piece) (word : List Char) : Prop :=
  ∃ before behind, ps = before ++ (word.map .char ++ behind) ∧
    (∀ p, before.getLast? = some p → p.inName = false) ∧
    ∀ p, behind.head? = some p → p.inName = false

/-- Of a lone word only the word itself is used. -/
theorem uses_iff_of_inName (h : ∀ p ∈ ps, p.inName = true) :
    Uses ps word ↔ ps = word.map .char := by
  constructor
  · rintro ⟨before, behind, rfl, hbefore, hbehind⟩
    obtain rfl : before = [] := by
      rcases List.eq_nil_or_concat before with rfl | ⟨before, p, rfl⟩
      · rfl
      · have hp := h p (by simp)
        rw [hbefore p (by simp)] at hp
        cases hp
    obtain rfl : behind = [] := by
      cases behind with
      | nil => rfl
      | cons p behind =>
        have hp := h p (by simp)
        rw [hbehind p rfl] at hp
        cases hp
    rw [List.nil_append, List.append_nil]
  · rintro rfl
    exact ⟨[], [], by simp, nofun, nofun⟩

/-- A piece that belongs to no name parts the words. -/
theorem uses_append_cons (hp : p.inName = false) (hword : isCName (String.ofList word) = true) :
    Uses (ps ++ p :: qs) word ↔ Uses ps word ∨ Uses qs word := by
  have hmem : p ∉ word.map .char := by
    intro hmem
    obtain ⟨c, hc, rfl⟩ := List.mem_map.1 hmem
    rw [Piece.inName, (isCName_ofList.1 hword).2 c hc] at hp
    cases hp
  constructor
  · rintro ⟨before, behind, heq, hbefore, hbehind⟩
    rcases List.append_eq_append_iff.1 heq with ⟨front, rfl, hrest⟩ | ⟨front, rfl, hrest⟩
    · -- The word begins behind `ps`, and not with the piece.
      cases front with
      | nil =>
        obtain ⟨c, word, rfl⟩ := List.exists_cons_of_ne_nil (ne_nil_of_isCName hword)
        obtain ⟨rfl, -⟩ := List.cons.inj hrest
        exact absurd List.mem_cons_self hmem
      | cons q front =>
        obtain ⟨rfl, rfl⟩ := List.cons.inj hrest
        refine .inr ⟨front, behind, rfl, fun r hr => hbefore r ?_, hbehind⟩
        rw [List.getLast?_append, List.getLast?_cons, hr]
        rfl
    · rcases List.append_eq_append_iff.1 hrest with ⟨back, rfl, rfl⟩ | ⟨back, hback, hrest⟩
      · refine .inl ⟨before, back, rfl, hbefore, fun r hr => hbehind r ?_⟩
        rw [List.head?_append, hr]
        rfl
      · cases back with
        | nil =>
          rw [List.append_nil] at hback
          exact .inl ⟨before, [], by rw [hback, List.append_nil], hbefore, nofun⟩
        | cons q back =>
          obtain ⟨rfl, -⟩ := List.cons.inj hrest
          rw [hback] at hmem
          exact absurd (List.mem_append_right _ List.mem_cons_self) hmem
  · rintro (⟨before, behind, rfl, hbefore, hbehind⟩ | ⟨before, behind, rfl, hbefore, hbehind⟩)
    · refine ⟨before, behind ++ p :: qs, by simp, hbefore, fun r hr => ?_⟩
      cases behind with
      | nil =>
        obtain rfl := Option.some.inj hr
        exact hp
      | cons q behind => exact hbehind r hr
    · refine ⟨ps ++ p :: before, behind, by simp, fun r hr => ?_, hbehind⟩
      rcases List.eq_nil_or_concat before with rfl | ⟨before, q, rfl⟩
      · obtain rfl : p = r := by simpa using hr
        exact hp
      · refine hbefore r ?_
        rw [List.concat_eq_append, ← List.cons_append, ← List.append_assoc,
          List.getLast?_append] at hr
        rw [List.concat_eq_append, List.getLast?_append]
        exact hr

/-- One of the names is used. -/
def UsesAny (ps : List Piece) (names : List (List Char)) : Prop :=
  ∃ name ∈ names, isCName (String.ofList name) = true ∧ Uses ps name

theorem usesAny_append_cons (hp : p.inName = false) :
    UsesAny (ps ++ p :: qs) names ↔ UsesAny ps names ∨ UsesAny qs names := by
  constructor
  · rintro ⟨name, hmem, hname, huses⟩
    refine ((uses_append_cons hp hname).1 huses).imp ?_ ?_
    · exact fun huses => ⟨name, hmem, hname, huses⟩
    · exact fun huses => ⟨name, hmem, hname, huses⟩
  · rintro (⟨name, hmem, hname, huses⟩ | ⟨name, hmem, hname, huses⟩)
    · exact ⟨name, hmem, hname, (uses_append_cons hp hname).2 (.inl huses)⟩
    · exact ⟨name, hmem, hname, (uses_append_cons hp hname).2 (.inr huses)⟩

/-- A word that has ended is one of the names just when it uses one. -/
theorem named_iff (hword : ∀ c ∈ word, isNameChar c = true) :
    mentions.named names word = true ↔ UsesAny (word.reverse.map .char) names := by
  have hchars : ∀ c ∈ word.reverse, isNameChar c = true :=
    fun c hc => hword c (List.mem_reverse.1 hc)
  have huses : ∀ name, Uses (word.reverse.map .char) name ↔ word.reverse = name := by
    intro name
    rw [uses_iff_of_inName, (List.map_injective_iff.2 fun c d h => Piece.char.inj h).eq_iff]
    intro p hp
    obtain ⟨c, hc, rfl⟩ := List.mem_map.1 hp
    exact hchars c hc
  have hany : UsesAny (word.reverse.map .char) names ↔
      word.reverse ∈ names ∧ isCName (String.ofList word.reverse) = true := by
    constructor
    · rintro ⟨name, hmem, hname, hname'⟩
      obtain rfl := (huses name).1 hname'
      exact ⟨hmem, hname⟩
    · exact fun ⟨hmem, hname⟩ => ⟨_, hmem, hname, (huses _).2 rfl⟩
  rw [hany, isCName_ofList, mentions.named]
  cases hrev : word.reverse with
  | nil => simp
  | cons c cs =>
    rw [hrev] at hchars
    simp only [List.head?_cons, Option.any_some, Bool.and_eq_true, List.contains_iff_mem]
    exact ⟨fun ⟨hstart, hmem⟩ => ⟨hmem, hstart, hchars⟩, fun ⟨hmem, hstart, _⟩ => ⟨hstart, hmem⟩⟩

/-- One of the names is mentioned just when it is used. -/
theorem mentions_iff : mentions names [] ps = true ↔ UsesAny ps names := by
  -- The word that has begun stands in front of the pieces.
  suffices h : ∀ word : List Char, (∀ c ∈ word, isNameChar c = true) →
      (mentions names word ps = true ↔ UsesAny (word.reverse.map .char ++ ps) names) from
    h [] nofun
  induction ps with
  | nil =>
    intro word hword
    rw [List.append_nil]
    exact named_iff hword
  | cons p ps ih =>
    intro word hword
    have hnone : mentions names [] ps = true ↔ UsesAny ps names := ih [] nofun
    cases p with
    | literal q body =>
      rw [usesAny_append_cons rfl, ← named_iff hword, ← hnone, ← Bool.or_eq_true]
      rfl
    | char c =>
      rw [mentions]
      split
      · next hc =>
        rw [ih (c :: word) (List.forall_mem_cons.2 ⟨hc, hword⟩), List.reverse_cons, List.map_append,
          List.append_assoc]
        rfl
      · next hc =>
        rw [usesAny_append_cons (p := .char c) (eq_false_of_ne_true hc), ← named_iff hword, ← hnone,
          Bool.or_eq_true]

/-! ## Names at the start -/

/-- The characters of a name at the start of pieces. -/
theorem exists_name (ps : List Piece) :
    ∃ (name : List Char) (qs : List Piece), ps = name.map .char ++ qs ∧
      (∀ c ∈ name, isNameChar c = true) ∧
      (∀ p, qs.head? = some p → p.inName = false) := by
  induction ps with
  | nil => exact ⟨[], [], rfl, nofun, nofun⟩
  | cons p ps ih =>
    cases hp : p.inName with
    | false => exact ⟨[], p :: ps, rfl, nofun, fun q hq => Option.some.inj hq ▸ hp⟩
    | true =>
      cases p with
      | literal q body => cases hp
      | char c =>
        obtain ⟨name, qs, rfl, hname, hqs⟩ := ih
        exact ⟨c :: name, qs, rfl, List.forall_mem_cons.2 ⟨hp, hname⟩, hqs⟩

/-- A name ends in front of a piece that belongs to no name. -/
theorem takeWhile_text {name : List Char} (hname : ∀ c ∈ name, isNameChar c = true)
    (hps : ∀ p ∈ qs, ReadsBack p) (hqs : ∀ p, qs.head? = some p → p.inName = false) :
    (name ++ text qs).takeWhile isNameChar = name := by
  cases qs with
  | nil =>
    rw [text, List.flatMap_nil, List.append_nil]
    exact List.takeWhile_eq_self_iff.2 hname
  | cons p qs =>
    cases p with
    | char c => exact takeWhile_append_cons hname (hqs (.char c) rfl) _
    | literal q body =>
      obtain ⟨hq, -⟩ := hps _ List.mem_cons_self
      rw [text_literal]
      refine takeWhile_append_cons hname ?_ _
      rcases hq with rfl | rfl <;> rfl

end Argument

end FlashStrings
