import FlashStrings.Proofs.Json.RoundTrip
import FlashStrings.Proofs.SortedMap
import FlashStrings.Stored.Database

/-!
# Decoding encoded values

Laws of the decoders on what the encoders make.  A decoder may refuse what does
not fit a file, a number of more than 64 bits; so the laws say that decoding
gives the value when it fits and nothing when it does not.
-/

namespace FlashStrings

variable {α : Type}

theorem eraseDups_of_nodup [DecidableEq α] {l : List α} (h : l.Nodup) : l.eraseDups = l := by
  induction l with
  | nil => rfl
  | cons a l ih =>
    rw [List.nodup_cons] at h
    have hf : l.filter (fun b => !b == a) = l := by
      refine List.filter_eq_self.2 fun b hb => ?_
      have hne : b ≠ a := fun he => h.1 (he ▸ hb)
      simp [hne]
    rw [List.eraseDups_cons, hf, ih h.2]

/-! ## Fields -/

theorem map_fst_memberIf (write : Bool) (name : String) (j : Json) :
    ((memberIf write name j).map Prod.fst).Sublist [name] := by
  cases write with
  | false => exact List.nil_sublist _
  | true => exact List.Sublist.refl _

theorem map_fst_optional (o : Option α) (name : String) (encode : α → Json) :
    (((o.map fun a => (name, encode a)).toList).map Prod.fst).Sublist [name] := by
  cases o with
  | none => exact List.nil_sublist _
  | some a => exact List.Sublist.refl _

@[simp] theorem lookup_memberIf (write : Bool) (name key : String) (j : Json) :
    (memberIf write name j).lookup key = if key = name ∧ write = true then some j else none := by
  cases write with
  | false => simp [memberIf]
  | true => simp only [memberIf, if_true, List.lookup_cons, List.lookup_nil, and_true]
            cases h : key == name <;> simp_all

@[simp] theorem lookup_optional (o : Option α) (name key : String) (encode : α → Json) :
    ((o.map fun a => (name, encode a)).toList).lookup key =
      if key = name then o.map encode else none := by
  cases o with
  | none => simp
  | some a =>
    simp only [Option.map_some, Option.toList_some, List.lookup_cons, List.lookup_nil]
    cases h : key == name <;> simp_all

theorem plain_memberIf {write : Bool} {name : String} {j : Json} (h : j.Plain) :
    ∀ m ∈ memberIf write name j, m.2.Plain := by
  intro m hm
  rw [memberIf] at hm
  split at hm
  · obtain rfl := List.mem_singleton.1 hm
    exact h
  · cases hm

theorem plain_optional {o : Option α} {name : String} {encode : α → Json}
    (h : ∀ a, (encode a).Plain) : ∀ m ∈ (o.map fun a => (name, encode a)).toList, m.2.Plain := by
  intro m hm
  cases o with
  | none => cases hm
  | some a =>
    obtain rfl := List.mem_singleton.1 hm
    exact h a

namespace Json

/-- A field that stands only for a value reads as that value. -/
theorem Fields.withDefault?_optional (fields : Fields) (name : String) (o : Option α)
    (encode : α → Json) {decode : Json → Option (Option α)} {fits : α → Bool}
    (hl : fields.lookup name = o.map encode)
    (h : ∀ a, decode (encode a) = if fits a then some (some a) else none) :
    fields.withDefault? name none decode = if o.all fits then some o else none := by
  rw [Fields.withDefault?, hl]
  cases o with
  | none => rfl
  | some a => exact h a

/-- A field that is left out for an empty value reads as that value. -/
theorem Fields.withDefault?_memberIf (fields : Fields) (name : String) (write : Bool) {j : Json}
    {value missing : α} {decode : Json → Option α} {fits : Bool}
    (hl : fields.lookup name = if write then some j else none)
    (h : decode j = if fits then some value else none)
    (hmissing : write = false → value = missing ∧ fits = true) :
    fields.withDefault? name missing decode = if fits then some value else none := by
  rw [Fields.withDefault?, hl]
  cases write with
  | true => exact h
  | false =>
    obtain ⟨rfl, hfits⟩ := hmissing rfl
    rw [if_pos hfits]
    rfl

@[simp] theorem members?_ofMembers (members : List (String × Json)) :
    (ofMembers members).members? = some members := by
  induction members with
  | nil => rfl
  | cons m members ih =>
    simp only [ofMembers, members?, List.map_cons, List.mapM_cons] at ih ⊢
    rw [ih]
    rfl

/-- The members of an object are the fields of a record, if they have the names
of its fields in their order. -/
theorem fields?_ofMembers {names : List String} {members : List (String × Json)}
    (h : (members.map Prod.fst).Sublist names) (hn : names.Nodup) :
    (ofMembers members).fields? names = some members := by
  have hf : members.filter (fun m => names.contains m.1) = members := by
    refine List.filter_eq_self.2 fun m hm => ?_
    rw [List.contains_iff_mem]
    exact h.subset (List.mem_map_of_mem hm)
  have hm := members?_ofMembers members
  rw [ofMembers] at hm
  rw [ofMembers, fields?, hm]
  · simp only [Option.bind_eq_bind, Option.bind_some, hf]
    rw [eraseDups_of_nodup (h.nodup hn), List.length_map, if_pos rfl]
  · intro items hi
    cases hi

/-! ## Lists and maps -/

/-- A law of one type becomes the law of lists. -/
theorem list?_map {encode : α → Json} {decode : Json → Option α} {fits : α → Bool}
    (h : ∀ a, decode (encode a) = if fits a then some a else none) (l : List α) :
    list? decode (.array (l.map encode)) = if l.all fits then some l else none := by
  rw [list?, List.mapM_map]
  induction l with
  | nil => rfl
  | cons a l ih =>
    rw [List.mapM_cons, ih, Function.comp_apply, h]
    cases ha : fits a <;> cases hl : l.all fits <;> simp [ha, hl]

theorem mapM_members {encode : α → Json} {decode : Json → Option α} {fits : α → Bool}
    (h : ∀ a, decode (encode a) = if fits a then some a else none) (l : List (String × α)) :
    (l.map fun (key, a) => (key, encode a)).mapM (fun (key, j) => (decode j).map (key, ·)) =
      if l.all (fun e => fits e.2) then some l else none := by
  rw [List.mapM_map]
  induction l with
  | nil => rfl
  | cons e l ih =>
    obtain ⟨key, a⟩ := e
    rw [List.mapM_cons, ih]
    simp only [Function.comp_apply, h]
    cases ha : fits a <;> cases hl : l.all (fun e => fits e.2) <;> simp [ha, hl]

/-- A law of one type becomes the law of maps from texts. -/
theorem map?_toJson {encode : α → Json} {decode : Json → Option α} {fits : α → Bool}
    (h : ∀ a, decode (encode a) = if fits a then some a else none) (m : TextMap α) :
    map? decode (TextMap.toJson encode m) =
      if m.entries.all (fun e => fits e.2) then some m else none := by
  rw [map?, TextMap.toJson, members?_ofMembers]
  simp only [Option.bind_eq_bind, Option.bind_some]
  rw [mapM_members h]
  split
  · simp
  · rfl

@[simp] theorem text?_ofText (s : String) : text? (ofText s) = some s := rfl

@[simp] theorem nat?_ofNat (n : Nat) :
    nat? (ofNat n) = if n < UInt64.size then some n else none := rfl

theorem text?_ofText_fits (s : String) :
    text? (ofText s) = if (fun _ => true) s then some s else none := rfl

theorem plain_toJson {encode : α → Json} (h : ∀ a, Plain (encode a)) (m : TextMap α) :
    Plain (TextMap.toJson encode m) := by
  refine .ofMembers fun e he => ?_
  obtain ⟨x, -, rfl⟩ := List.mem_map.1 he
  exact h x.2

theorem plain_array {encode : α → Json} (h : ∀ a, Plain (encode a)) (l : List α) :
    Plain (.array (l.map encode)) := by
  refine .array fun j hj => ?_
  obtain ⟨a, -, rfl⟩ := List.mem_map.1 hj
  exact h a

end Json

end FlashStrings
