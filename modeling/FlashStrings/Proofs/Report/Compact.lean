import FlashStrings.Proofs.Invocation.Refused
import FlashStrings.Report.Issues

/-!
# Lines of compact reports

A compact report has a line for each issue, in the order of reports, which is a total one
(`Issue.order`).  Each line ends with a line break (`lineBreaks_unlines`).  If the files have
names of one line, only the message breaks the line of an issue
(`Report.lineBreaks_compactLine`), and the message of an error in arguments has the line
breaks of the texts that it shows (`ArgumentError.lineBreaks_message`).
-/

namespace FlashStrings

/-! ## Line breaks -/

/-- The number of line breaks in a text. -/
def lineBreaks (text : String) : Nat := text.toList.count '\n'

/-- The text has no line break. -/
def Unbroken (text : String) : Prop := lineBreaks text = 0

instance : DecidablePred Unbroken := fun text => inferInstanceAs (Decidable (lineBreaks text = 0))

theorem unbroken_iff {text : String} : Unbroken text ↔ '\n' ∉ text.toList := List.count_eq_zero

@[simp] theorem lineBreaks_append (a b : String) :
    lineBreaks (a ++ b) = lineBreaks a + lineBreaks b := by
  rw [lineBreaks, String.toList_append, List.count_append]
  rfl

theorem Unbroken.append {a b : String} (ha : Unbroken a) (hb : Unbroken b) : Unbroken (a ++ b) := by
  rw [Unbroken, lineBreaks_append, ha, hb]

theorem lineBreaks_framed {before after : String} (hbefore : Unbroken before)
    (hafter : Unbroken after) (text : String) :
    lineBreaks (before ++ text ++ after) = lineBreaks text := by
  rw [lineBreaks_append, lineBreaks_append, hbefore, hafter, Nat.zero_add, Nat.add_zero]

theorem unbroken_toString (n : Nat) : Unbroken (toString n) := by
  have hdigits : (toString n).toList = Nat.toDigits 10 n := by simp [toString]
  refine unbroken_iff.2 fun hmem => ?_
  rw [hdigits] at hmem
  exact absurd (Nat.isDigit_of_mem_toDigits (by decide) (by decide) hmem) (by decide)

theorem unbroken_intercalate {sep : String} {texts : List String} (hsep : Unbroken sep)
    (h : ∀ text ∈ texts, Unbroken text) : Unbroken (sep.intercalate texts) := by
  rw [unbroken_iff, String.toList_intercalate]
  intro hmem
  refine forall_mem_intercalate (P := (· ≠ '\n')) (fun c hc => ?_) (fun s hs c hc => ?_) _ hmem rfl
  · rintro rfl
    exact unbroken_iff.1 hsep hc
  · obtain ⟨text, htext, rfl⟩ := List.mem_map.1 hs
    rintro rfl
    exact unbroken_iff.1 (h text htext) hc

theorem unbroken_render {l : Location} (h : Unbroken l.file) : Unbroken l.render := by
  have hcolon : Unbroken ":" := by decide
  exact (((h.append hcolon).append (unbroken_toString _)).append hcolon).append
    (unbroken_toString _)

/-! ### Texts one after the other -/

theorem lineBreaks_join (texts : List String) :
    lineBreaks (String.join texts) = (texts.flatMap String.toList).count '\n' := by
  rw [lineBreaks, String.toList_join]

theorem lineBreaks_join_cons (text : String) (texts : List String) :
    lineBreaks (String.join (text :: texts)) =
      lineBreaks text + lineBreaks (String.join texts) := by
  rw [lineBreaks_join, lineBreaks_join, List.flatMap_cons, List.count_append]
  rfl

theorem lineBreaks_join_perm {texts texts' : List String} (h : texts.Perm texts') :
    lineBreaks (String.join texts) = lineBreaks (String.join texts') := by
  rw [lineBreaks_join, lineBreaks_join]
  exact (h.flatMap_right _).count_eq _

theorem lineBreaks_join_congr {α : Type} {f g : α → String} {l : List α}
    (h : ∀ a ∈ l, lineBreaks (f a) = lineBreaks (g a)) :
    lineBreaks (String.join (l.map f)) = lineBreaks (String.join (l.map g)) := by
  induction l with
  | nil => rfl
  | cons a l ih =>
    obtain ⟨hfirst, hrest⟩ := List.forall_mem_cons.1 h
    rw [List.map_cons, List.map_cons, lineBreaks_join_cons, lineBreaks_join_cons, hfirst, ih hrest]

theorem unbroken_join_iff {texts : List String} :
    Unbroken (String.join texts) ↔ ∀ text ∈ texts, Unbroken text := by
  rw [unbroken_iff, String.toList_join, List.mem_flatMap, not_exists]
  exact forall_congr' fun text => by rw [not_and, unbroken_iff]

/-- Each line has its line break, besides those inside of it. -/
theorem lineBreaks_unlines (lines : List String) :
    lineBreaks (unlines lines) = lines.length + lineBreaks (String.join lines) := by
  induction lines with
  | nil => rfl
  | cons line lines ih =>
    have hcons : unlines (line :: lines) = line ++ "\n" ++ unlines lines := by
      rw [← String.toList_inj]
      simp [unlines, String.toList_join]
    have hnewline : lineBreaks "\n" = 1 := rfl
    rw [hcons, lineBreaks_append, lineBreaks_append, ih, hnewline, List.length_cons,
      lineBreaks_join_cons]
    omega

/-! ## Messages -/

/-- A message has the line breaks of the texts that it shows. -/
theorem ArgumentError.lineBreaks_message (e : ArgumentError) :
    lineBreaks e.message = lineBreaks (String.join e.shown) := by
  have framed {before after : String} (hbefore : Unbroken before) (hafter : Unbroken after)
      (text : String) :
      lineBreaks (before ++ text ++ after) = lineBreaks (String.join [text]) := by
    rw [lineBreaks_framed hbefore hafter, lineBreaks_join_cons]
    rfl
  cases e with
  | unterminatedString | unbalancedParentheses | missingIdentifier | emptyArgument
  | missingValue => decide
  | invalidIdentifier text | invalidLocaleCode text | missingLocaleValue text
  | unexpectedValue text | invalidValue text => exact framed (by decide) (by decide) text
  | duplicateLocale code first second =>
    show lineBreaks ("locale `" ++ code ++ "` is assigned two different values: \"" ++ first ++
      "\" and \"" ++ second ++ "\"") = _
    have hlocale : lineBreaks "locale `" = 0 := by decide
    have hassigned : lineBreaks "` is assigned two different values: \"" = 0 := by decide
    have hand : lineBreaks "\" and \"" = 0 := by decide
    have hquote : lineBreaks "\"" = 0 := by decide
    have hnone : lineBreaks (String.join []) = 0 := by decide
    simp only [lineBreaks_append, hlocale, hassigned, hand, hquote, shown, lineBreaks_join_cons,
      hnone]
    omega

/-! ## The order of reports -/

namespace Issue

/-- The order of reports, key by key. -/
def order : Issue → Issue → Ordering :=
  compareLex (compareLex (compareLex (compareLex (compareOn (·.sortLocation.file))
    (compareOn (·.sortLocation.line))) (compareOn (·.sortLocation.col)))
    (compareOn (·.rule.ctorIdx))) (compareOn message)

instance : Std.TransCmp order := by
  unfold order
  infer_instance

theorem le_eq (a b : Issue) : a.le b = (order a b).isLE := rfl

theorem le_trans (a b c : Issue) (hab : a.le b = true) (hbc : b.le c = true) : a.le c = true := by
  rw [le_eq] at hab hbc ⊢
  exact Std.TransCmp.isLE_trans hab hbc

theorem le_total (a b : Issue) : (a.le b || b.le a) = true := by
  have hswap : order b a = (order a b).swap := Std.OrientedCmp.eq_swap
  rw [le_eq, le_eq, hswap]
  cases order a b <;> rfl

/-- Sorted issues stand in the order of reports. -/
theorem pairwise_sort (issues : List Issue) : (sort issues).Pairwise (·.le ·) :=
  List.pairwise_mergeSort le_trans le_total issues

theorem sort_sort (issues : List Issue) : sort (sort issues) = sort issues :=
  List.mergeSort_of_pairwise (pairwise_sort issues)

/-! ## The line of an issue -/

/-- The files that the line of an issue names. -/
def files (i : Issue) : List String := i.sortLocation.file :: i.related.map (·.location.file)

end Issue

namespace Report

variable {i : Issue}

theorem unbroken_position (h : Unbroken i.sortLocation.file) : Unbroken (position i) := by
  simp only [position]
  split
  · exact h
  · exact unbroken_render h

theorem unbroken_severity (s : Severity) : Unbroken s.name := by cases s <;> decide

theorem unbroken_rule (r : Rule) : Unbroken r.name := by cases r <;> decide

/-- Only the message can break the line of an issue, if the files have names of one line. -/
theorem lineBreaks_compactLine (h : ∀ file ∈ i.files, Unbroken file) :
    lineBreaks (compactLine i) = lineBreaks i.message := by
  obtain ⟨hfile, hrelated⟩ := List.forall_mem_cons.1 h
  have hsites : Unbroken (", ".intercalate (i.related.map (·.location.render))) := by
    refine unbroken_intercalate (by decide) fun text htext => ?_
    obtain ⟨site, hsite, rfl⟩ := List.mem_map.1 htext
    exact unbroken_render (hrelated _ (List.mem_map_of_mem hsite))
  have hfront : Unbroken (position i ++ ": " ++ i.severity.name ++ "[" ++ i.rule.name ++ "]: ") :=
    ((((unbroken_position hfile).append (by decide)).append (unbroken_severity _)).append
      (by decide)).append (unbroken_rule _) |>.append (by decide)
  have halso : Unbroken (if (i.related.map (·.location.render)).isEmpty then ""
      else " (also: " ++ ", ".intercalate (i.related.map (·.location.render)) ++ ")") := by
    split
    · decide
    · exact (Unbroken.append (by decide) hsites).append (by decide)
  exact lineBreaks_framed hfront halso i.message

/-- A compact report has a line break for each issue, and those of the messages. -/
theorem lineBreaks_compact {issues : List Issue}
    (h : ∀ i ∈ issues, ∀ file ∈ i.files, Unbroken file) :
    lineBreaks (compact issues) =
      issues.length + lineBreaks (String.join (issues.map Issue.message)) := by
  have hperm : (Issue.sort issues).Perm issues := List.mergeSort_perm issues Issue.le
  rw [compact, lineBreaks_unlines, List.length_map, hperm.length_eq,
    lineBreaks_join_perm (hperm.map _),
    lineBreaks_join_congr fun i hi => lineBreaks_compactLine (h i hi)]

end Report

end FlashStrings
