import FlashStrings.Proofs.Invocation.Refused
import FlashStrings.Proofs.Source.Sites

/-!
# Refused invocations

An error of a scan is about an invocation at a place of the source, as a record is taken at
one (`Scan.Refuses`).  What it shows comes from the text between the parentheses and from
the string defines.  So the texts that are shown stand in one line, unless the invocation
is closed and a line break stands between its parentheses (`Scan.Refuses.isSpread`).
-/

namespace FlashStrings

namespace Argument

/-- Characters that were collected stand in front of the closing parenthesis, but for the
spaces in place of comments. -/
theorem exists_args_of_collect {depth width width' : Nat} {found ps : List Piece} {s : List Char}
    (h : collect depth found width s = .ok (ps, width')) :
    ∃ args rest, s = args ++ ')' :: rest ∧ width' = width + args.length + 1 ∧
      ∀ c ∈ text ps, c ∈ text found ∨ c = ' ' ∨ c ∈ args := by
  -- one more piece, which stands in front of what is left
  have cons {p : Piece} {found : List Piece} {front args : List Char}
      (hp : ∀ c ∈ p.text, c = ' ' ∨ c ∈ front)
      (ih : ∀ c ∈ text ps, c ∈ text (p :: found) ∨ c = ' ' ∨ c ∈ args) :
      ∀ c ∈ text ps, c ∈ text found ∨ c = ' ' ∨ c ∈ front ++ args := by
    intro c hc
    rcases ih c hc with hmem | hspace | hmem
    · rcases List.mem_append.1 (show c ∈ p.text ++ text found from hmem) with hmem | hmem
      · exact .inr ((hp c hmem).imp_right (List.mem_append_left _))
      · exact .inl hmem
    · exact .inr (.inl hspace)
    · exact .inr (.inr (List.mem_append_right _ hmem))
  fun_induction collect depth found width s with
  | case1 | case6 => cases h
  | case2 depth found width s ih | case4 found width s depth _ ih
  | case8 depth found width c s _ _ _ _ ih =>
    obtain ⟨args, rest, rfl, rfl, hall⟩ := ih h
    exact ⟨_ :: args, rest, rfl, by simp; omega, cons (fun _ => .inr) hall⟩
  | case3 found width s =>
    obtain ⟨rfl, rfl⟩ := Prod.mk.inj (Except.ok.inj h)
    refine ⟨[], s, rfl, rfl, fun c hc => .inl ?_⟩
    exact text_subset (List.reverse_subset.2 (List.Subset.refl found)) hc
  | case5 depth found width q s _ _ _ body rest hbody _ ih =>
    obtain ⟨args, rest, rfl, rfl, hall⟩ := ih h
    refine ⟨(q :: body ++ [q]) ++ args, rest, ?_, by simp; omega, cons (fun _ => .inr) hall⟩
    rw [quoted?_eq_some hbody]
    simp
  | case7 depth found width c s _ _ _ n _ _ ih =>
    obtain ⟨args, rest, hdrop, rfl, hall⟩ := ih h
    have hlt : n < (c :: s).length := by
      have hlength := congrArg List.length hdrop
      simp only [List.length_drop, List.length_append, List.length_cons] at hlength ⊢
      omega
    refine ⟨(c :: s).take n ++ args, rest, ?_, ?_, cons (fun d hd => .inl ?_) hall⟩
    · rw [List.append_assoc, ← hdrop, List.take_append_drop]
    · rw [List.length_append, List.length_take, Nat.min_eq_left (Nat.le_of_lt hlt)]
      omega
    · exact List.mem_singleton.1 hd

/-- Arguments that are not collected are left open. -/
theorem collect_eq_error {depth width : Nat} {found : List Piece} {s : List Char}
    {e : ArgumentError} (h : collect depth found width s = .error e) :
    e = .unterminatedString ∨ e = .unbalancedParentheses := by
  fun_induction collect depth found width s with
  | case1 => exact .inr (Except.error.inj h).symm
  | case3 => cases h
  | case6 => exact .inl (Except.error.inj h).symm
  | case2 depth found width s ih | case4 found width s depth _ ih
  | case8 depth found width c s _ _ _ _ ih => exact ih h
  | case5 depth found width q s _ _ _ body rest hbody _ ih => exact ih h
  | case7 depth found width c s _ _ _ n _ _ ih => exact ih h

end Argument

namespace Scan

open Argument (extract)

variable {settings : ScanSettings} {text : String} {e : ParseError} {site : Site}
  {args : List Char}

/-- The scan of the text refuses the invocation with the error. -/
structure Refuses (settings : ScanSettings) (text : String) (e : ParseError) (site : Site)
    (args : List Char) : Prop where
  source_eq : withoutMark text = site.source args
  gap : Gap site.gap
  macroName_eq : e.macroName = site.name
  location_eq : e.location = location settings (site.cursor args)
  refused : extract args = .error e.error ∨ ∃ kind ps width, macroKind? site.name = some kind ∧
    extract args = .ok (ps, width) ∧ readArguments settings kind ps = .error e.error

/-- An invocation is refused if its arguments are not collected or not read. -/
theorem invocation_eq_refused {c : Cursor} {body : DefineBody} {kind : RecordKind} {name : String}
    (h : (invocation settings c body kind name args).1 = some (.refused e)) :
    e.macroName = name ∧ e.location = location settings c ∧
      (extract args = .error e.error ∨ ∃ ps width, extract args = .ok (ps, width) ∧
        readArguments settings kind ps = .error e.error) := by
  rw [invocation] at h
  split at h
  · next error hextract =>
    obtain rfl := Finding.refused.inj (Option.some.inj h)
    exact ⟨rfl, rfl, .inl hextract⟩
  · next ps width hextract =>
    split at h
    · cases h
    split at h
    · next error hread =>
      obtain rfl := Finding.refused.inj (Option.some.inj h)
      exact ⟨rfl, rfl, .inr ⟨ps, width, hextract, hread⟩⟩
    · cases h

/-- Every error of a scan refuses an invocation. -/
theorem exists_refuses (h : e ∈ errorsOf (scan settings text)) :
    ∃ site args, Refuses settings text e site args := by
  obtain ⟨σ, kind, site, args, -, hcursor, hsource, hkind, hgap, hinvocation⟩ :=
    exists_site_of_mem_scan (mem_errorsOf.1 h)
  obtain ⟨hname, hlocation, hrefused⟩ := invocation_eq_refused hinvocation
  refine ⟨site, args, hsource, hgap, hname, hcursor ▸ hlocation, ?_⟩
  rcases hrefused with hextract | ⟨ps, width, hextract, hread⟩
  · exact .inl hextract
  · exact .inr ⟨kind, ps, width, hkind, hextract, hread⟩

/-- The invocation that the error is about is closed, and a line break stands between its
parentheses. -/
def IsSpread (settings : ScanSettings) (text : String) (e : ParseError) : Prop :=
  ∃ site args rest ps, Refuses settings text e site (args ++ ')' :: rest) ∧
    extract (args ++ ')' :: rest) = .ok (ps, args.length + 1) ∧ '\n' ∈ args

/-- Line breaks that are shown stand in the arguments. -/
theorem Refuses.isSpread (h : Refuses settings text e site args)
    (hdefines : settings.defines.Free '\n') {shown : String} (hshown : shown ∈ e.error.shown)
    (hbreak : '\n' ∈ shown.toList) : IsSpread settings text e := by
  have hopen : ∀ {error : ArgumentError}, shown ∈ error.shown →
      ¬(error = .unterminatedString ∨ error = .unbalancedParentheses) := by
    rintro error hmem (rfl | rfl) <;> cases hmem
  rcases h.refused with hextract | ⟨kind, ps, width, -, hextract, hread⟩
  · exact absurd (Argument.collect_eq_error hextract) (hopen hshown)
  obtain ⟨front, rest, rfl, rfl, hall⟩ := Argument.exists_args_of_collect hextract
  refine ⟨site, front, rest, ps, h, by simpa using hextract, ?_⟩
  have hps : Argument.OperandsHave settings.defines (fun content => '\n' ∈ content.toList →
      '\n' ∈ Argument.text ps) ps := by
    intro part hpart content hoperand hmem
    refine Decidable.byContradiction fun hnone => ?_
    exact Argument.not_mem_of_operand hdefines (by decide)
      (fun hpartmem => hnone (Argument.text_subset hpart hpartmem)) hoperand hmem
  have hmem : '\n' ∈ Argument.text ps := by
    refine Decidable.byContradiction fun hnone => ?_
    rcases readArguments_eq_error hread with hall | hmissing
    · rcases Argument.refusal_of_readAll hps hall with hsplit | hrefusal
      · exact hopen hshown (Argument.split_eq_error hsplit)
      · exact hrefusal.not_mem_shown (by decide) (by decide) hnone
          (fun _ hcontent hc => hnone (hcontent hc)) shown hshown hbreak
    · rw [hmissing] at hshown
      cases hshown
  rcases hall '\n' hmem with hnil | hspace | hargs
  · cases hnil
  · cases hspace
  · exact hargs

end Scan

end FlashStrings
