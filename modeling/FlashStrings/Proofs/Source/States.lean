import FlashStrings.Proofs.Source.Invocation
import Mathlib.Logic.Relation

/-!
# States of a scan

A scan goes from state to state: it stands at a cursor, knows the definition whose
body it may be in, and holds what was found so far (`Scan.State`).  What a scan gives
is the same from every state that it reaches (`Reaches.outcome_eq`), nothing that was
found is lost on the way (`Reaches.found_subset_scan`), and all of it was found in one of
these states (`exists_of_mem_scan`).

`Invokes` says that a closed invocation of a string macro stands at the cursor.
`next?_of_invokes` is the step there: over the name and the parenthesis when the
arguments are refused, and else through the closing parenthesis.
-/

namespace FlashStrings

/-- The byte order mark is taken from the front of a text. -/
theorem withoutMark_append (front : List Char) (c : Char) (hc : c ≠ '\uFEFF') (back : List Char) :
    withoutMark (String.ofList (front ++ c :: back)) =
      withoutMark (String.ofList front) ++ c :: back := by
  simp only [withoutMark, String.toList_ofList]
  cases front with
  | nil => simp [hc]
  | cons d front =>
    by_cases hd : d = '\uFEFF'
    · simp [hd]
    · simp [hd]

theorem suffix_withoutMark (text : String) : withoutMark text <:+ text.toList := by
  rw [withoutMark]
  split
  · next s hs => exact hs ▸ List.suffix_cons _ s
  · exact List.suffix_rfl

namespace Scan

/-- Where a scan stands. -/
structure State where
  cursor : Cursor
  /-- The body of a macro definition that the scan has met last. -/
  body : DefineBody := {}
  /-- What was found so far, last one first. -/
  found : List Finding := []

/-- The state at the start of a text. -/
def initial (text : String) : State := { cursor := .start (withoutMark text) }

namespace State

variable {settings : ScanSettings} {σ τ ρ : State}

/-- The state after the step at the cursor; none at the end of the text. -/
def next? (settings : ScanSettings) (σ : State) : Option State :=
  match σ.cursor.after with
  | [] => none
  | first :: s =>
    let next := step settings σ.cursor σ.body first s
    some ⟨σ.cursor.advance next.width, next.body, next.found.toList ++ σ.found⟩

/-- What the scan gives that goes on from the state. -/
def outcome (settings : ScanSettings) (σ : State) : List Finding :=
  run settings σ.cursor σ.body σ.found

theorem outcome_initial (settings : ScanSettings) (text : String) :
    (initial text).outcome settings = scan settings text := rfl

theorem next?_of_after {first : Char} {s : List Char} (h : σ.cursor.after = first :: s) :
    σ.next? settings = some ⟨σ.cursor.advance (step settings σ.cursor σ.body first s).width,
      (step settings σ.cursor σ.body first s).body,
      (step settings σ.cursor σ.body first s).found.toList ++ σ.found⟩ := by
  rw [next?, h]

/-- A step is at a character, and leads to the state behind it. -/
theorem of_next? (h : σ.next? settings = some τ) :
    ∃ first s, σ.cursor.after = first :: s ∧
      τ = ⟨σ.cursor.advance (step settings σ.cursor σ.body first s).width,
        (step settings σ.cursor σ.body first s).body,
        (step settings σ.cursor σ.body first s).found.toList ++ σ.found⟩ := by
  cases hafter : σ.cursor.after with
  | nil => simp [next?, hafter] at h
  | cons first s =>
    rw [next?_of_after hafter] at h
    exact ⟨first, s, rfl, (Option.some.inj h).symm⟩

theorem outcome_of_next? (h : σ.next? settings = some τ) :
    σ.outcome settings = τ.outcome settings := by
  obtain ⟨first, s, hafter, rfl⟩ := of_next? h
  exact run_of_after_cons hafter

theorem mem_run_of_mem {c : Cursor} {body : DefineBody} {found : List Finding} {x : Finding}
    (h : x ∈ found) : x ∈ run settings c body found := by
  fun_induction run settings c body found with
  | case1 c body found _ => exact List.mem_reverse.2 h
  | case2 c body found first s _ next _ ih => exact ih (List.mem_append_right _ h)

/-! ## Reached states -/

/-- The second state is reached from the first one. -/
def Reaches (settings : ScanSettings) : State → State → Prop :=
  Relation.ReflTransGen fun σ τ => σ.next? settings = some τ

/-- A scan gives the same from every state that it reaches. -/
theorem Reaches.outcome_eq (h : Reaches settings σ τ) :
    σ.outcome settings = τ.outcome settings := by
  induction h with
  | refl => rfl
  | tail _ hnext ih => exact ih.trans (outcome_of_next? hnext)

theorem Reaches.text_eq (h : Reaches settings σ τ) : τ.cursor.text = σ.cursor.text := by
  induction h with
  | refl => rfl
  | tail _ hnext ih =>
    obtain ⟨first, s, -, rfl⟩ := of_next? hnext
    rw [Cursor.text_advance, ih]

theorem Reaches.length_after_le (h : Reaches settings σ τ) :
    τ.cursor.after.length ≤ σ.cursor.after.length := by
  induction h with
  | refl => exact Nat.le_refl _
  | tail _ hnext ih =>
    obtain ⟨first, s, -, rfl⟩ := of_next? hnext
    rw [Cursor.length_after_advance]
    omega

/-- What was found when the scan reached a state is among the findings. -/
theorem Reaches.found_subset_scan {text : String} (h : Reaches settings (initial text) σ) :
    σ.found ⊆ scan settings text := by
  rw [← outcome_initial, h.outcome_eq]
  exact fun _ => mem_run_of_mem

/-- What a run gives was found before it, or in a state that it reaches. -/
theorem exists_of_mem_run {c : Cursor} {body : DefineBody} {found : List Finding} {x : Finding}
    (h : x ∈ run settings c body found) :
    x ∈ found ∨ ∃ σ first s, Reaches settings ⟨c, body, found⟩ σ ∧ σ.cursor.after = first :: s ∧
      (step settings σ.cursor σ.body first s).found = some x := by
  fun_induction run settings c body found with
  | case1 c body found _ => exact .inl (List.mem_reverse.1 h)
  | case2 c body found first s hafter next _ ih =>
    have hnext : (⟨c, body, found⟩ : State).next? settings = some _ := next?_of_after hafter
    rcases ih h with hmem | ⟨σ, first', s', hσ, hafter', hfound⟩
    · rcases List.mem_append.1 hmem with hx | hx
      · exact .inr ⟨_, first, s, .refl, hafter, Option.mem_toList.1 hx⟩
      · exact .inl hx
    · exact .inr ⟨σ, first', s', .head hnext hσ, hafter', hfound⟩

/-- What a scan gives is found in a state that it reaches. -/
theorem exists_of_mem_scan {text : String} {x : Finding} (h : x ∈ scan settings text) :
    ∃ σ first s, Reaches settings (initial text) σ ∧ σ.cursor.after = first :: s ∧
      (step settings σ.cursor σ.body first s).found = some x :=
  (exists_of_mem_run h).resolve_left List.not_mem_nil

end State

/-! ## Invocations -/

/-- An invocation of a macro of this kind, with these pieces as its arguments, takes
this many characters at the start of the text. -/
inductive Invokes : List Char → RecordKind → List Piece → Nat → Prop where
  | intro {name : String} {kind : RecordKind} {gap args rest : List Char} {ps : List Piece} :
    macroKind? name = some kind →
    Lexeme.trivia (gap ++ '(' :: (args ++ ')' :: rest)) = gap.length →
    Argument.extract (args ++ ')' :: rest) = .ok (ps, args.length + 1) →
    Invokes (name.toList ++ (gap ++ '(' :: (args ++ ')' :: rest))) kind ps
      (name.length + gap.length + args.length + 2)

variable {settings : ScanSettings} {σ : State} {kind : RecordKind} {ps : List Piece} {width : Nat}

/-- The step at an invocation takes what stands before the arguments, and what
`invocation` takes of them. -/
theorem State.next?_of_invokes (settings : ScanSettings)
    (h : Invokes σ.cursor.after kind ps width) :
    ∃ name args head argsWidth, head + argsWidth = width ∧
      Argument.extract args = .ok (ps, argsWidth) ∧
      ∀ body, { σ with body }.next? settings =
        some ⟨σ.cursor.advance (head + (invocation settings σ.cursor body kind name args).2), body,
          (invocation settings σ.cursor body kind name args).1.toList ++ σ.found⟩ := by
  generalize htext : σ.cursor.after = text at h
  cases h with
  | @intro name _ gap args rest _ hkind hgap hextract =>
    refine ⟨name, args ++ ')' :: rest, name.length + gap.length + 1, args.length + 1, by omega,
      hextract, fun body => ?_⟩
    obtain ⟨first, s, hcons⟩ := List.exists_cons_of_ne_nil
      (show name.toList ++ (gap ++ '(' :: (args ++ ')' :: rest)) ≠ [] by simp)
    obtain ⟨hwidth, hbody, hfound⟩ :=
      step_of_invocation settings σ.cursor body hkind hgap hcons.symm
    rw [next?_of_after (σ := { σ with body }) (htext.trans hcons), hwidth, hbody, hfound]

/-- An invocation whose arguments are read gives a record, and the scan goes on behind
its closing parenthesis. -/
theorem State.next?_of_read {read : Invocation} (h : Invokes σ.cursor.after kind ps width)
    (hbody : ¬(σ.cursor.offset < σ.body.stop ∧ Argument.mentions σ.body.params [] ps = true))
    (hread : readArguments settings kind ps = .ok read) :
    σ.next? settings = some ⟨σ.cursor.advance width, σ.body,
      .record { identifier := read.identifier, kind, value := read.value
                location := location settings σ.cursor } :: σ.found⟩ := by
  obtain ⟨name, args, head, argsWidth, rfl, hextract, hnext⟩ :=
    next?_of_invokes settings h
  have hgives : invocation settings σ.cursor σ.body kind name args =
      (some (.record { identifier := read.identifier, kind, value := read.value
                       location := location settings σ.cursor }), argsWidth) := by
    rw [invocation, hextract]
    simp only [Bool.and_eq_true, decide_eq_true_eq, hbody, if_false, hread]
  rw [hnext σ.body, hgives]
  rfl

end Scan

end FlashStrings
