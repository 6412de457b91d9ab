import FlashStrings.Json.Read
import FlashStrings.Proofs.Json.Token

/-!
# Reading written JSON

A JSON value is *plain* when its numbers are natural and its texts are sequences
of characters, as all values are that the library writes.  Reading what is
written for a plain value gives that value (`Json.parse?_render_append`).

The proof goes by the tokens of a value, `Json.tokens`: what is written for it is
read as these tokens, and these tokens are read as the value.
-/

namespace FlashStrings

namespace Json

/-- Whether all numbers are natural and all texts are sequences of characters. -/
inductive Plain : Json → Prop where
  | null : Plain .null
  | bool (b : Bool) : Plain (.bool b)
  | num (n : Nat) : Plain (.num (some n))
  | text (s : String) : Plain (.text (some s))
  | array {items : List Json} (h : ∀ j ∈ items, Plain j) : Plain (.array items)
  | object {members : List (Option String × Json)} (hkeys : ∀ m ∈ members, m.1.isSome = true)
      (h : ∀ m ∈ members, Plain m.2) : Plain (.object members)

theorem Plain.ofMembers {members : List (String × Json)} (h : ∀ m ∈ members, Plain m.2) :
    Plain (.ofMembers members) := by
  refine .object ?_ ?_
  · intro m hm
    obtain ⟨e, -, rfl⟩ := List.mem_map.1 hm
    rfl
  · intro m hm
    obtain ⟨e, he, rfl⟩ := List.mem_map.1 hm
    exact h e he

/-! ## The tokens of a value -/

mutual

/-- The tokens of a value. -/
def tokens : Json → List Token
  | .null => [.null]
  | .bool b => [.bool b]
  | .num n => [.num n]
  | .text s => [.text s]
  | .array [] => [.openArray, .closeArray]
  | .array (j :: js) => .openArray :: tokens j ++ itemTokens js ++ [.closeArray]
  | .object [] => [.openObject, .closeObject]
  | .object ((key, j) :: members) =>
    .openObject :: .text key :: .colon :: tokens j ++ memberTokens members ++ [.closeObject]

/-- The tokens of the items of an array behind the first one. -/
def itemTokens : List Json → List Token
  | [] => []
  | j :: js => .comma :: tokens j ++ itemTokens js

/-- The tokens of the members of an object behind the first one. -/
def memberTokens : List (Option String × Json) → List Token
  | [] => []
  | (key, j) :: members => .comma :: .text key :: .colon :: tokens j ++ memberTokens members

end

/-! ## From text to tokens -/

namespace Token

theorem read?_token {found : List Token} {c : Char} {s rest : List Char} {t : Token}
    (hc : isSpace c = false) (h : first? (c :: s) = some (t, rest)) :
    read? found (c :: s) = read? (t :: found) rest := by
  rw [read?, if_neg (by simp [hc])]
  split
  · next heq =>
    obtain ⟨rfl, rfl⟩ := Prod.mk.inj (Option.some.inj (h.symm.trans heq))
    rfl
  · next heq =>
    rw [h] at heq
    cases heq

theorem read?_space (found : List Token) {c : Char} (h : isSpace c = true) (rest : List Char) :
    read? found (c :: rest) = read? found rest := by
  rw [read?, if_pos h]

theorem read?_spaces (found : List Token) {s : List Char} (h : ∀ c ∈ s, isSpace c = true)
    (rest : List Char) : read? found (s ++ rest) = read? found rest := by
  induction s with
  | nil => rfl
  | cons c s ih =>
    rw [List.cons_append, read?_space found (h c List.mem_cons_self)]
    exact ih fun d hd => h d (List.mem_cons_of_mem _ hd)

theorem read?_newline (found : List Token) (depth : Nat) (rest : List Char) :
    read? found (newline depth ++ rest) = read? found rest := by
  refine read?_spaces found (fun c hc => ?_) rest
  rcases List.mem_cons.1 hc with rfl | hc
  · rfl
  · rw [(List.mem_replicate.1 hc).2]
    rfl

theorem read?_quote (found : List Token) (s : String) (rest : List Char) :
    read? found (quote s ++ rest) = read? (.text (some s) :: found) rest := by
  exact read?_token rfl (first?_quote s rest)

theorem read?_toDigits (found : List Token) (n : Nat) {rest : List Char} (h : EndsNumber rest) :
    read? found (Nat.toDigits 10 n ++ rest) = read? (.num (some n) :: found) rest := by
  have hf := first?_toDigits n h
  obtain ⟨c, s, hs⟩ := List.exists_cons_of_ne_nil (Nat.toDigits_ne_nil (n := n) (b := 10))
  have hc : c.isDigit = true := isDigit_of_mem_toDigits (n := n) (by simp [hs])
  rw [hs] at hf ⊢
  refine read?_token ?_ hf
  simp only [isSpace, Bool.or_eq_false_iff, beq_eq_false_iff_ne]
  refine ⟨⟨⟨?_, ?_⟩, ?_⟩, ?_⟩ <;> rintro rfl <;> simp at hc

theorem endsNumber_newline (depth : Nat) (s : List Char) : EndsNumber (newline depth ++ s) :=
  endsNumber_cons (by decide) _

theorem endsNumber_itemLines (depth depth' : Nat) (js : List Json) (s : List Char) :
    EndsNumber (itemLines depth js ++ (newline depth' ++ s)) := by
  cases js with
  | nil => exact endsNumber_newline depth' s
  | cons j js => exact endsNumber_cons (by decide) _

theorem endsNumber_memberLines (depth depth' : Nat) (members : List (Option String × Json))
    (s : List Char) : EndsNumber (memberLines depth members ++ (newline depth' ++ s)) := by
  cases members with
  | nil => exact endsNumber_newline depth' s
  | cons m members => exact endsNumber_cons (by decide) _

/-- What is written for the value is read as its tokens, whatever follows that is
no part of a number. -/
def Reads (j : Json) : Prop :=
  ∀ (depth : Nat) (found : List Token) (rest : List Char), EndsNumber rest →
    read? found (lines depth j ++ rest) = read? ((tokens j).reverse ++ found) rest

theorem read?_itemLines {js : List Json} (h : ∀ j ∈ js, Reads j) (depth depth' : Nat)
    (found : List Token) (rest : List Char) :
    read? found (itemLines depth js ++ (newline depth' ++ rest)) =
      read? ((itemTokens js).reverse ++ found) rest := by
  induction js generalizing found with
  | nil => exact read?_newline found depth' rest
  | cons j js ih =>
    have hj := h j List.mem_cons_self
    have hrest := endsNumber_itemLines depth depth' js rest
    simp only [itemLines, itemTokens, List.cons_append, List.append_assoc, List.reverse_cons,
      List.reverse_append, List.nil_append]
    rw [read?_token rfl rfl, read?_newline, hj depth _ _ hrest,
      ih fun i hi => h i (List.mem_cons_of_mem _ hi)]

theorem read?_memberLines {members : List (Option String × Json)}
    (hkeys : ∀ m ∈ members, m.1.isSome = true) (h : ∀ m ∈ members, Reads m.2)
    (depth depth' : Nat) (found : List Token) (rest : List Char) :
    read? found (memberLines depth members ++ (newline depth' ++ rest)) =
      read? ((memberTokens members).reverse ++ found) rest := by
  induction members generalizing found with
  | nil => exact read?_newline found depth' rest
  | cons m members ih =>
    obtain ⟨key, j⟩ := m
    obtain ⟨key, rfl⟩ := Option.isSome_iff_exists.1 (hkeys _ List.mem_cons_self)
    have hj := h _ List.mem_cons_self
    have hrest := endsNumber_memberLines depth depth' members rest
    simp only [memberLines, memberTokens, Option.getD_some, List.cons_append, List.append_assoc,
      List.reverse_cons, List.reverse_append, List.nil_append]
    rw [read?_token rfl rfl, read?_newline, read?_quote, read?_token rfl rfl,
      read?_space _ rfl, hj depth _ _ hrest,
      ih (fun i hi => hkeys i (List.mem_cons_of_mem _ hi))
        fun i hi => h i (List.mem_cons_of_mem _ hi)]

theorem reads_of_plain {j : Json} (h : Plain j) : Reads j := by
  induction h with
  | null => exact fun depth found rest _ => read?_token rfl rfl
  | bool b => cases b <;> exact fun depth found rest _ => read?_token rfl rfl
  | num n => exact fun depth found rest hrest => read?_toDigits found n hrest
  | text s => exact fun depth found rest _ => read?_quote found s rest
  | @array items hitems ih =>
    intro depth found rest hrest
    cases items with
    | nil =>
      simp only [lines, tokens, List.cons_append, List.nil_append, List.reverse_cons,
        List.reverse_nil]
      rw [read?_token rfl rfl, read?_token rfl rfl]
    | cons j js =>
      have hj := ih j List.mem_cons_self
      have hmore := endsNumber_itemLines (depth + 1) depth js (']' :: rest)
      simp only [lines, tokens, List.cons_append, List.append_assoc, List.nil_append,
        List.reverse_cons, List.reverse_append, List.reverse_nil]
      rw [read?_token rfl rfl, read?_newline, hj (depth + 1) _ _ hmore,
        read?_itemLines fun i hi => ih i (List.mem_cons_of_mem _ hi), read?_token rfl rfl]
  | @object members hkeys hmembers ih =>
    intro depth found rest hrest
    cases members with
    | nil =>
      simp only [lines, tokens, List.cons_append, List.nil_append, List.reverse_cons,
        List.reverse_nil]
      rw [read?_token rfl rfl, read?_token rfl rfl]
    | cons m members =>
      obtain ⟨key, j⟩ := m
      obtain ⟨key, rfl⟩ := Option.isSome_iff_exists.1 (hkeys _ List.mem_cons_self)
      have hj := ih _ List.mem_cons_self
      have hmore := endsNumber_memberLines (depth + 1) depth members ('}' :: rest)
      simp only [lines, tokens, Option.getD_some, List.cons_append, List.append_assoc,
        List.nil_append, List.reverse_cons, List.reverse_append, List.reverse_nil]
      rw [read?_token rfl rfl, read?_newline, read?_quote, read?_token rfl rfl,
        read?_space _ rfl, hj (depth + 1) _ _ hmore,
        read?_memberLines (fun i hi => hkeys i (List.mem_cons_of_mem _ hi))
          fun i hi => ih i (List.mem_cons_of_mem _ hi), read?_token rfl rfl]

end Token

/-! ## From tokens to the value -/

namespace Reader

/-- The tokens of the value are read as the value. -/
def Completes (j : Json) : Prop :=
  ∀ frames : List Frame, (tokens j).foldlM step (.atValue frames) = complete j frames

theorem foldlM_itemTokens {js : List Json} (h : ∀ j ∈ js, Completes j) (items : List Json)
    (frames : List Frame) :
    (itemTokens js).foldlM step (.behind (.array items :: frames)) =
      some (.behind (.array (js.reverse ++ items) :: frames)) := by
  induction js generalizing items with
  | nil => rfl
  | cons j js ih =>
    rw [itemTokens, List.cons_append, List.foldlM_cons, List.reverse_cons, List.append_assoc]
    simp only [step, if_true, Option.bind_eq_bind, Option.bind_some, List.foldlM_append]
    rw [h j List.mem_cons_self]
    exact ih (fun i hi => h i (List.mem_cons_of_mem _ hi)) (j :: items)

theorem foldlM_memberTokens {members : List (Option String × Json)}
    (h : ∀ m ∈ members, Completes m.2) (before : List (Option String × Json))
    (frames : List Frame) :
    (memberTokens members).foldlM step (.behind (.object before :: frames)) =
      some (.behind (.object (members.reverse ++ before) :: frames)) := by
  induction members generalizing before with
  | nil => rfl
  | cons m members ih =>
    obtain ⟨key, j⟩ := m
    rw [memberTokens, List.cons_append, List.cons_append, List.cons_append, List.foldlM_cons,
      List.reverse_cons, List.append_assoc]
    simp only [step, if_true, Option.bind_eq_bind, Option.bind_some, List.foldlM_append,
      List.foldlM_cons, beginMember]
    rw [h _ List.mem_cons_self]
    exact ih (fun i hi => h i (List.mem_cons_of_mem _ hi)) ((key, j) :: before)

/-- A value may follow where an array was just opened. -/
theorem foldlM_opened_array (j : Json) (frames : List Frame) :
    (tokens j).foldlM step (.opened (.array [] :: frames)) =
      (tokens j).foldlM step (.atValue (.array [] :: frames)) := by
  have hstep : ∀ t, t ≠ .closeArray →
      step (.opened (.array [] :: frames)) t = step (.atValue (.array [] :: frames)) t := by
    intro t ht
    simp [step, close, ht]
  cases j with
  | array items => cases items <;> simp only [tokens, List.cons_append, List.foldlM_cons] <;>
      rw [hstep _ (by simp)]
  | object members => cases members <;> simp only [tokens, List.cons_append, List.foldlM_cons] <;>
      rw [hstep _ (by simp)]
  | _ =>
    simp only [tokens, List.foldlM_cons]
    rw [hstep _ (by simp)]

theorem completes (j : Json) (h : Plain j) : Completes j := by
  induction h with
  | null => exact fun frames => by simp [tokens, step, beginValue]
  | bool b => exact fun frames => by simp [tokens, step, beginValue]
  | num n => exact fun frames => by simp [tokens, step, beginValue]
  | text s => exact fun frames => by simp [tokens, step, beginValue]
  | @array items hitems ih =>
    intro frames
    cases items with
    | nil => simp [tokens, step, beginValue, close]
    | cons j js =>
      have hj := ih j List.mem_cons_self
      have hjs := foldlM_itemTokens (fun i hi => ih i (List.mem_cons_of_mem _ hi)) [j] frames
      rw [tokens, List.cons_append, List.cons_append, List.foldlM_cons]
      simp only [step, beginValue, Option.bind_eq_bind, Option.bind_some, List.foldlM_append]
      rw [foldlM_opened_array, hj, complete, Option.bind_some, hjs]
      simp [step, close]
  | @object members hkeys hmembers ih =>
    intro frames
    cases members with
    | nil => simp [tokens, step, beginValue, close, beginMember]
    | cons m members =>
      obtain ⟨key, j⟩ := m
      have hj := ih (key, j) List.mem_cons_self (.member [] key :: frames)
      have hms := foldlM_memberTokens (fun i hi => ih i (List.mem_cons_of_mem _ hi)) [(key, j)]
        frames
      simp only [tokens, List.cons_append, List.foldlM_cons, List.foldlM_append, step, beginValue,
        beginMember, close, Option.bind_eq_bind, Option.bind_some, if_true, reduceCtorEq, if_false,
        Option.orElse_none]
      rw [hj, complete, Option.bind_some, hms]
      simp

end Reader

/-- Reading what is written for a plain value gives the value, also with spaces
and line breaks behind it. -/
theorem parse?_render_append {j : Json} (h : Plain j) {s : String}
    (hs : ∀ c ∈ s.toList, Token.isSpace c = true) : parse? (j.render ++ s) = some j := by
  have hends : Token.EndsNumber s.toList := by
    intro c hc
    have hspace := hs c (List.mem_of_mem_head? hc)
    simp only [Token.isSpace, Bool.or_eq_true, beq_iff_eq] at hspace
    rcases hspace with ((rfl | rfl) | rfl) | rfl <;> decide
  have hread : Token.read? [] (lines 0 j ++ s.toList) = some (tokens j) := by
    rw [Token.reads_of_plain h 0 [] _ hends, ← List.append_nil s.toList,
      Token.read?_spaces _ hs, Token.read?, List.append_nil, List.reverse_reverse]
  have hdone : (tokens j).foldlM Reader.step (.atValue []) = some (.done j) :=
    Reader.completes j h []
  rw [parse?, String.toList_append, render, String.toList_ofList, hread]
  simp only [Option.bind_eq_bind, Option.bind_some, hdone, Reader.result?]

end Json

end FlashStrings
