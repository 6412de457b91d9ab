import Mathlib.Data.List.Forall2
import FlashStrings.Proofs.Text.Trim

/-!
# Tokens with blanks around them

`Spaced p tokens s` says that the list is made of the tokens in their order, with
any number of blanks before, between and behind them.  What is a blank is the
predicate `p`, so the same relation speaks of characters and of pieces.

Spaced tokens can be taken apart (`Spaced.exists_append`), also at the marks between
several parts (`Spaced.exists_intercalate`).  Trimming keeps them
(`Spaced.trimWhile`), and of a lone token it leaves the token
(`Spaced.trimWhile_singleton`).
-/

namespace FlashStrings

theorem forall_of_forall₂ {α β : Type} {R : α → β → Prop} {P : β → Prop} {l : List α}
    {bs : List β} (h : List.Forall₂ R l bs) (hP : ∀ a b, R a b → P b) : ∀ b ∈ bs, P b := by
  induction h with
  | nil => exact List.forall_mem_nil _
  | cons hab _ ih => exact List.forall_mem_cons.2 ⟨hP _ _ hab, ih⟩

theorem exists_mem_of_forall₂ {α β : Type} {R : α → β → Prop} {l : List α} {bs : List β} {a : α}
    (h : List.Forall₂ R l bs) (ha : a ∈ l) : ∃ b ∈ bs, R a b := by
  induction h with
  | nil => cases ha
  | @cons a' b l bs hab _ ih =>
    rcases List.mem_cons.1 ha with rfl | ha
    · exact ⟨b, List.mem_cons_self, hab⟩
    · obtain ⟨b', hb', hR⟩ := ih ha
      exact ⟨b', List.mem_cons_of_mem b hb', hR⟩

theorem forall_mem_intercalate {α : Type} {P : α → Prop} {sep : List α} {parts : List (List α)}
    (hsep : ∀ a ∈ sep, P a) (h : ∀ part ∈ parts, ∀ a ∈ part, P a) :
    ∀ a ∈ sep.intercalate parts, P a := by
  induction parts with
  | nil => exact List.forall_mem_nil _
  | cons part parts ih =>
    obtain ⟨hpart, hparts⟩ := List.forall_mem_cons.1 h
    cases parts with
    | nil => rwa [List.intercalate_singleton]
    | cons next parts =>
      rw [List.intercalate_cons_cons]
      exact List.forall_mem_append.2 ⟨List.forall_mem_append.2 ⟨hpart, hsep⟩, ih hparts⟩

/-- The tokens in their order, with blanks around them. -/
inductive Spaced {α : Type} (p : α → Bool) : List (List α) → List α → Prop where
  | nil : Spaced p [] []
  | blank {a : α} {tokens : List (List α)} {s : List α} :
    p a = true → Spaced p tokens s → Spaced p tokens (a :: s)
  | token {token : List α} {tokens : List (List α)} {s : List α} :
    Spaced p tokens s → Spaced p (token :: tokens) (token ++ s)

namespace Spaced

variable {α β : Type} {p : α → Bool} {q : β → Bool} {tokens tokens' : List (List α)} {s t : List α}

/-- No member of a token is a blank. -/
def Solid (p : α → Bool) (tokens : List (List α)) : Prop :=
  ∀ token ∈ tokens, ∀ a ∈ token, p a = false

/-! ## Putting together and taking apart -/

/-- A token without blanks. -/
theorem single (p : α → Bool) (token : List α) : Spaced p [token] token := by
  have h : Spaced p [token] (token ++ []) := .token .nil
  rwa [List.append_nil] at h

theorem append (h : Spaced p tokens s) (h' : Spaced p tokens' t) :
    Spaced p (tokens ++ tokens') (s ++ t) := by
  induction h with
  | nil => exact h'
  | blank ha _ ih => exact .blank ha ih
  | token _ ih =>
    rw [List.append_assoc]
    exact .token ih

theorem exists_append (h : Spaced p (tokens ++ tokens') s) :
    ∃ front back, s = front ++ back ∧ Spaced p tokens front ∧ Spaced p tokens' back := by
  generalize hall : tokens ++ tokens' = all at h
  induction h generalizing tokens with
  | nil =>
    obtain ⟨rfl, rfl⟩ := List.append_eq_nil_iff.1 hall
    exact ⟨[], [], rfl, .nil, .nil⟩
  | @blank a _ s ha _ ih =>
    obtain ⟨front, back, rfl, hfront, hback⟩ := ih hall
    exact ⟨a :: front, back, rfl, .blank ha hfront, hback⟩
  | @token first rest s hs ih =>
    cases tokens with
    | nil =>
      obtain rfl : tokens' = first :: rest := hall
      exact ⟨[], first ++ s, rfl, .nil, .token hs⟩
    | cons first' tokens =>
      obtain ⟨rfl, hrest⟩ := List.cons.inj hall
      obtain ⟨front, back, rfl, hfront, hback⟩ := ih hrest
      exact ⟨first' ++ front, back, by rw [List.append_assoc], .token hfront, hback⟩

theorem exists_cons {token : List α} (h : Spaced p (token :: tokens) s) :
    ∃ blanks rest, s = blanks ++ token ++ rest ∧ Spaced p [] blanks ∧ Spaced p tokens rest := by
  generalize hall : token :: tokens = all at h
  induction h with
  | nil => cases hall
  | @blank a _ s ha _ ih =>
    obtain ⟨blanks, rest, rfl, hblanks, hrest⟩ := ih hall
    exact ⟨a :: blanks, rest, rfl, .blank ha hblanks, hrest⟩
  | @token first rest s hs _ =>
    obtain ⟨rfl, rfl⟩ := List.cons.inj hall
    exact ⟨[], s, rfl, .nil, hs⟩

/-- Parts with a mark between them.  The blanks around a mark go with the parts. -/
theorem exists_intercalate {mark : α} {parts : List (List (List α))} (hne : parts ≠ [])
    (h : Spaced p ([[mark]].intercalate parts) s) :
    ∃ texts, s = [mark].intercalate texts ∧ List.Forall₂ (Spaced p) parts texts := by
  induction parts generalizing s with
  | nil => exact absurd rfl hne
  | cons part parts ih =>
    cases parts with
    | nil =>
      rw [List.intercalate_singleton] at h
      exact ⟨[s], (List.intercalate_singleton ..).symm, .cons h .nil⟩
    | cons next parts =>
      rw [List.intercalate_cons_cons, List.append_assoc] at h
      obtain ⟨front, back, rfl, hfront, hback⟩ := exists_append h
      obtain ⟨blanks, rest, rfl, hblanks, hrest⟩ := exists_cons hback
      obtain ⟨texts, rfl, htexts⟩ := ih (List.cons_ne_nil _ _) hrest
      cases htexts with
      | @cons _ text _ texts htext htexts =>
        refine ⟨(front ++ blanks) :: text :: texts, ?_, ?_⟩
        · rw [List.intercalate_cons_cons]
          simp only [List.append_assoc]
        · have hpart := hfront.append hblanks
          rw [List.append_nil] at hpart
          exact .cons hpart (.cons htext htexts)

/-- Parts that are put together with a mark, which may have blanks around it. -/
theorem intercalate {mark : α} {sep : List α} (hsep : Spaced p [[mark]] sep)
    {parts : List (List (List α))} {texts : List (List α)}
    (h : List.Forall₂ (Spaced p) parts texts) :
    Spaced p ([[mark]].intercalate parts) (sep.intercalate texts) := by
  induction h with
  | nil => exact .nil
  | cons hpart hparts ih =>
    cases hparts with
    | nil => rwa [List.intercalate_singleton, List.intercalate_singleton]
    | cons =>
      rw [List.intercalate_cons_cons, List.intercalate_cons_cons]
      exact (hpart.append hsep).append ih

theorem eq_true_of_nil (h : Spaced p [] s) : ∀ a ∈ s, p a = true := by
  generalize hall : ([] : List (List α)) = all at h
  induction h with
  | nil => exact List.forall_mem_nil _
  | blank ha _ ih => exact List.forall_mem_cons.2 ⟨ha, ih hall⟩
  | token => cases hall

/-- What is no blank stands in a token. -/
theorem exists_mem (h : Spaced p tokens s) {a : α} (ha : a ∈ s) (hp : p a = false) :
    ∃ token ∈ tokens, a ∈ token := by
  induction h with
  | nil => cases ha
  | @blank b _ s hb _ ih =>
    rcases List.mem_cons.1 ha with rfl | ha
    · exact absurd (hp.symm.trans hb) (by decide)
    · exact ih ha
  | @token token tokens s _ ih =>
    rcases List.mem_append.1 ha with ha | ha
    · exact ⟨token, List.mem_cons_self, ha⟩
    · obtain ⟨other, hother, ha⟩ := ih ha
      exact ⟨other, List.mem_cons_of_mem _ hother, ha⟩

theorem mem_of_mem (h : Spaced p tokens s) {token : List α} (htoken : token ∈ tokens) {a : α}
    (ha : a ∈ token) : a ∈ s := by
  induction h with
  | nil => cases htoken
  | blank _ _ ih => exact List.mem_cons_of_mem _ (ih htoken)
  | token _ ih =>
    rcases List.mem_cons.1 htoken with rfl | htoken
    · exact List.mem_append_left _ ha
    · exact List.mem_append_right _ (ih htoken)

/-! ## Other members -/

/-- Parts with a mark between them, with every member replaced. -/
theorem map_intercalate (f : α → β) (mark : α) (parts : List (List α)) :
    ([mark].intercalate parts).map f = [f mark].intercalate (parts.map (List.map f)) := by
  induction parts with
  | nil => rfl
  | cons part parts ih =>
    cases parts with
    | nil => simp only [List.map_cons, List.map_nil, List.intercalate_singleton]
    | cons next parts =>
      rw [List.map_cons, List.map_cons, List.intercalate_cons_cons, List.intercalate_cons_cons,
        List.map_append, List.map_append, ih]
      rfl

/-- The members are replaced by lists, blanks by blanks. -/
theorem flatMap (h : Spaced p tokens s) (f : α → List β)
    (hf : ∀ a, p a = true → ∀ b ∈ f a, q b = true) :
    Spaced q (tokens.map fun token => token.flatMap f) (s.flatMap f) := by
  have blanks {bs : List β} (hbs : ∀ b ∈ bs, q b = true) {tokens : List (List β)} {s : List β}
      (h : Spaced q tokens s) : Spaced q tokens (bs ++ s) := by
    induction bs with
    | nil => exact h
    | cons b bs ih =>
      obtain ⟨hb, hbs⟩ := List.forall_mem_cons.1 hbs
      exact .blank hb (ih hbs)
  induction h with
  | nil => exact .nil
  | blank ha _ ih => exact blanks (hf _ ha) ih
  | token _ ih =>
    rw [List.flatMap_append]
    exact .token ih

/-- The members are read off lists, blanks off blanks: whatever is made of the
texts of the tokens is the text of spaced tokens. -/
theorem exists_of_flatMap {f : β → List α} (hf : ∀ a, p a = true → ∃ b, f b = [a] ∧ q b = true)
    {tokens : List (List β)} (h : Spaced p (tokens.map fun token => token.flatMap f) s) :
    ∃ t, s = t.flatMap f ∧ Spaced q tokens t := by
  generalize hall : (tokens.map fun token => token.flatMap f) = all at h
  induction h generalizing tokens with
  | nil =>
    obtain rfl := List.map_eq_nil_iff.1 hall
    exact ⟨[], rfl, .nil⟩
  | blank ha _ ih =>
    obtain ⟨b, hb, hq⟩ := hf _ ha
    obtain ⟨t, rfl, ht⟩ := ih hall
    exact ⟨b :: t, by rw [List.flatMap_cons, hb, List.singleton_append], .blank hq ht⟩
  | token _ ih =>
    obtain ⟨token, tokens, rfl, rfl, hrest⟩ := List.map_eq_cons_iff.1 hall
    obtain ⟨t, rfl, ht⟩ := ih hrest
    exact ⟨token ++ t, by rw [List.flatMap_append], .token ht⟩

/-! ## Trimming -/

theorem dropWhile_append {token : List α} (hne : token ≠ []) (h : ∀ a ∈ token, p a = false)
    (s : List α) : (token ++ s).dropWhile p = token ++ s := by
  cases token with
  | nil => exact absurd rfl hne
  | cons a token => exact List.dropWhile_cons_of_neg (by simp [h a List.mem_cons_self])

theorem dropWhile (h : Spaced p tokens s) (hsolid : Solid p tokens) :
    Spaced p tokens (s.dropWhile p) := by
  induction h with
  | nil => exact .nil
  | blank ha _ ih =>
    rw [List.dropWhile_cons_of_pos ha]
    exact ih hsolid
  | @token token tokens s hs ih =>
    obtain ⟨htoken, hrest⟩ := List.forall_mem_cons.1 hsolid
    cases token with
    | nil => exact @Spaced.token _ _ [] _ _ (ih hrest)
    | cons a token =>
      rw [dropWhile_append (List.cons_ne_nil _ _) htoken]
      exact .token hs

theorem reverse (h : Spaced p tokens s) :
    Spaced p (tokens.map List.reverse).reverse s.reverse := by
  induction h with
  | nil => exact .nil
  | blank ha _ ih =>
    have hlast := ih.append (.blank ha .nil)
    rwa [List.append_nil, ← List.reverse_cons] at hlast
  | @token token _ _ _ ih =>
    have hlast := ih.append (single p token.reverse)
    rwa [← List.reverse_append, ← List.reverse_cons, ← List.map_cons] at hlast

theorem Solid.reverse (h : Solid p tokens) : Solid p (tokens.map List.reverse).reverse := by
  intro token htoken a ha
  obtain ⟨other, hother, rfl⟩ := List.mem_map.1 (List.mem_reverse.1 htoken)
  exact h other hother a (List.mem_reverse.1 ha)

/-- Trimming takes away blanks only. -/
theorem trimWhile (h : Spaced p tokens s) (hsolid : Solid p tokens) :
    Spaced p tokens (trimWhile p s) := by
  have hend := ((h.dropWhile hsolid).reverse.dropWhile hsolid.reverse).reverse
  rw [List.map_reverse, List.reverse_reverse, List.map_map] at hend
  have hid : (List.reverse ∘ List.reverse : List α → List α) = id :=
    funext fun l => List.reverse_reverse l
  rwa [hid, List.map_id] at hend

/-- A lone token is what trimming leaves. -/
theorem trimWhile_singleton {token : List α} (h : Spaced p [token] s) (hne : token ≠ [])
    (hsolid : ∀ a ∈ token, p a = false) : FlashStrings.trimWhile p s = token := by
  obtain ⟨blanks, rest, rfl, hblanks, hrest⟩ := h.exists_cons
  have hend := dropWhile_append (List.reverse_ne_nil_iff.2 hne)
    (fun a ha => hsolid a (List.mem_reverse.1 ha)) []
  rw [List.append_nil] at hend
  rw [FlashStrings.trimWhile, List.append_assoc,
    List.dropWhile_append_of_pos hblanks.eq_true_of_nil, dropWhile_append hne hsolid,
    dropWhileEnd, List.reverse_append,
    List.dropWhile_append_of_pos fun a ha => hrest.eq_true_of_nil a (List.mem_reverse.1 ha),
    hend, List.reverse_reverse]

end Spaced

end FlashStrings
