import LintFront.Proofs.Table

/-!
# Values merged in depth

Two objects are merged member by member; anything else above stays as it is. Three values can be
merged in either order unless the lower two disagree about where there is an object.

* `Value.WellFormed`: objects hold each name once.
* `Value.Agree`: no path leads to an object in one value and to something else in the other.
* `Value.merge_assoc`: merging is associative where the lower values agree.
* `Value.deep`: the meaning of several values, the highest first.
* `Value.foldl_merge`: merging them one after the other gives that meaning.
-/

namespace LintFront.Value

/-- Objects hold each name once, at any depth. -/
inductive WellFormed : Value → Prop
  | null : WellFormed .null
  | bool (b : Bool) : WellFormed (.bool b)
  | number (n : Number) : WellFormed (.number n)
  | text (s : String) : WellFormed (.text s)
  | list {items : List Value} (h : ∀ v ∈ items, WellFormed v) : WellFormed (.list items)
  | object {members : List (String × Value)} (hdistinct : Table.Distinct members)
      (h : ∀ entry ∈ members, WellFormed entry.2) : WellFormed (.object members)

theorem wellFormed_object_iff {members : List (String × Value)} :
    (Value.object members).WellFormed ↔
      Table.Distinct members ∧ ∀ entry ∈ members, entry.2.WellFormed := by
  constructor
  · rintro ⟨⟩
    exact ⟨‹_›, ‹_›⟩
  · rintro ⟨hdistinct, h⟩
    exact .object hdistinct h

/-- The members of an object; anything else has none. -/
def members? : Value → Option (Table Value)
  | .object members => some members
  | _ => none

theorem eq_object_of_members? {v : Value} {members : Table Value}
    (h : v.members? = some members) : v = .object members := by
  cases v <;> simp_all [members?]

theorem WellFormed.distinct {v : Value} (hv : v.WellFormed) {members : Table Value}
    (h : v.members? = some members) : members.Distinct := by
  cases hv <;> simp_all [members?]

theorem WellFormed.of_find? {v : Value} (hv : v.WellFormed) {members : Table Value}
    (h : v.members? = some members) {name : String} {w : Value}
    (hw : Table.find? members name = some w) : w.WellFormed := by
  cases hv with
  | object _ hentries =>
    obtain rfl := Option.some.inj h
    exact hentries _ (Table.mem_of_find? hw)
  | _ => cases h

/-! ## Sizes -/

theorem sizeOf_lt_of_find? {members : Table Value} {name : String} {w : Value}
    (h : Table.find? members name = some w) : sizeOf w < sizeOf members := by
  have hmem := List.sizeOf_lt_of_mem (Table.mem_of_find? h)
  have hpair : sizeOf (name, w) = 1 + sizeOf name + sizeOf w := rfl
  omega

/-- What holds of a value whenever it holds of the members of it holds of every value. -/
theorem members_induction {P : Value → Prop}
    (step : ∀ v, (∀ members name w, v.members? = some members →
      Table.find? members name = some w → P w) → P v) (v : Value) : P v := by
  generalize hsize : sizeOf v = size
  induction size using Nat.strongRecOn generalizing v with
  | ind size ih =>
    refine step v fun members name w hmembers hw => ?_
    have hlt := sizeOf_lt_of_find? hw
    have hv : sizeOf v = 1 + sizeOf members := by
      rw [eq_object_of_members? hmembers, object.sizeOf_spec]
    exact ih (sizeOf w) (by omega) w rfl

/-! ## Two values -/

theorem mergeMembers_eq (members source : List (String × Value)) :
    mergeMembers members source = Table.mergeWith merge members source := by
  induction source generalizing members with
  | nil => rfl
  | cons entry rest ih =>
    rw [mergeMembers, ih, Table.mergeWith_cons]
    congr 2
    funext present
    cases present <;> rfl

theorem merge_object (members source : Table Value) :
    merge (.object members) (.object source) = .object (Table.mergeWith merge members source) := by
  rw [merge, mergeMembers_eq]

theorem merge_of_left {v : Value} (h : v.members? = none) (w : Value) : merge v w = v := by
  cases w <;> cases v <;> simp_all [merge, members?]

theorem merge_of_right (v : Value) {w : Value} (h : w.members? = none) : merge v w = v := by
  cases w <;> simp_all [merge, members?]

theorem WellFormed.merge {v w : Value} (hv : v.WellFormed) (hw : w.WellFormed) :
    (v.merge w).WellFormed := by
  induction v using members_induction generalizing w with
  | step v ih =>
    cases hvm : v.members? with
    | none => rwa [merge_of_left hvm]
    | some members =>
      cases hwm : w.members? with
      | none => rwa [merge_of_right v hwm]
      | some source =>
        rw [eq_object_of_members? hvm, eq_object_of_members? hwm, merge_object]
        refine .object ((hv.distinct hvm).mergeWith _ _) fun entry hentry => ?_
        rcases Table.find?_of_mem_mergeWith (hv.distinct hvm) (hw.distinct hwm) hentry with
          hleft | hright | ⟨a, b, ha, hb, heq⟩
        · exact hv.of_find? hvm hleft
        · exact hw.of_find? hwm hright
        · rw [← heq]
          exact ih members entry.1 a hvm ha (hv.of_find? hvm ha) (hw.of_find? hwm hb)

/-! ## Agreement -/

/-- What a path of names leads to. -/
def at? : List String → Value → Option Value
  | [], v => some v
  | name :: path, v => (v.member? name).bind (at? path)

/-- No path leads to an object in one value and to something else in the other. -/
def Agree (v w : Value) : Prop :=
  ∀ path a b, at? path v = some a → at? path w = some b → a.members?.isSome = b.members?.isSome

theorem member?_eq {v : Value} {members : Table Value} (h : v.members? = some members)
    (name : String) : v.member? name = Table.find? members name := by
  rw [eq_object_of_members? h]
  rfl

theorem Agree.members {v w : Value} (h : Agree v w) :
    v.members?.isSome = w.members?.isSome := h [] v w rfl rfl

theorem Agree.member {v w a b : Value} (h : Agree v w) {name : String}
    (ha : v.member? name = some a) (hb : w.member? name = some b) : Agree a b := by
  intro path x y hx hy
  exact h (name :: path) x y (by simpa [at?, ha] using hx) (by simpa [at?, hb] using hy)

theorem Agree.of_members {v w : Value} (h : v.members?.isSome = w.members?.isSome)
    (hmembers : ∀ name a b, v.member? name = some a → w.member? name = some b → Agree a b) :
    Agree v w := by
  intro path a b ha hb
  cases path with
  | nil =>
    obtain rfl := Option.some.inj ha
    obtain rfl := Option.some.inj hb
    exact h
  | cons name path =>
    obtain ⟨x, hx, ha⟩ := Option.bind_eq_some_iff.mp ha
    obtain ⟨y, hy, hb⟩ := Option.bind_eq_some_iff.mp hb
    exact hmembers name x y hx hy path a b ha hb

/-- Whether a value is an object and none of its members is one. -/
def isFlat : Value → Bool
  | .object members => members.all fun entry => entry.2.members?.isNone
  | _ => false

theorem eq_object_of_isFlat {v : Value} (h : v.isFlat = true) :
    ∃ members, v = .object members ∧ ∀ entry ∈ members, entry.2.members? = none := by
  cases v with
  | object members =>
    refine ⟨members, rfl, fun entry hentry => Option.isNone_iff_eq_none.mp ?_⟩
    exact List.all_eq_true.mp h entry hentry
  | _ => cases h

theorem agree_of_isFlat {v w : Value} (hv : v.isFlat = true) (hw : w.isFlat = true) :
    Agree v w := by
  obtain ⟨members, rfl, hmembers⟩ := eq_object_of_isFlat hv
  obtain ⟨others, rfl, hothers⟩ := eq_object_of_isFlat hw
  refine .of_members rfl fun name a b ha hb => ?_
  have hnone := hmembers _ (Table.mem_of_find? ha)
  refine .of_members (by rw [hnone, hothers _ (Table.mem_of_find? hb)]) fun inner x y hx _ => ?_
  cases a with
  | object _ => cases hnone
  | _ => cases hx

/-- Where a path leads in a merged value, it leads to the same kind of value in one of the two. -/
theorem at?_merge {v w : Value} (hw : w.WellFormed) {path : List String} {x : Value}
    (h : at? path (merge v w) = some x) :
    ∃ y, (at? path v = some y ∨ at? path w = some y) ∧
      x.members?.isSome = y.members?.isSome := by
  cases hvm : v.members? with
  | none =>
    rw [merge_of_left hvm] at h
    exact ⟨x, Or.inl h, rfl⟩
  | some members =>
    cases hwm : w.members? with
    | none =>
      rw [merge_of_right v hwm] at h
      exact ⟨x, Or.inl h, rfl⟩
    | some source =>
      induction path generalizing v w x members source with
      | nil =>
        refine ⟨v, Or.inl rfl, ?_⟩
        obtain rfl := Option.some.inj h
        rw [eq_object_of_members? hvm, eq_object_of_members? hwm, merge_object]
        rfl
      | cons name path ih =>
        rw [eq_object_of_members? hvm, eq_object_of_members? hwm, merge_object] at h
        simp only [at?, member?, Table.find?_mergeWith _ _ (hw.distinct hwm)] at h
        simp only [at?, member?_eq hvm, member?_eq hwm]
        cases ha : Table.find? members name with
        | none => exact ⟨x, Or.inr (by simpa [ha] using h), rfl⟩
        | some a =>
          cases hb : Table.find? source name with
          | none => exact ⟨x, Or.inl (by simpa [ha, hb] using h), rfl⟩
          | some b =>
            have hx : at? path (a.merge b) = some x := by simpa [ha, hb] using h
            cases ham : a.members? with
            | none =>
              rw [merge_of_left ham] at hx
              exact ⟨x, Or.inl hx, rfl⟩
            | some ms =>
              cases hbm : b.members? with
              | none =>
                rw [merge_of_right a hbm] at hx
                exact ⟨x, Or.inl hx, rfl⟩
              | some ss => exact ih (hw.of_find? hwm hb) hx ms ham ss hbm

theorem Agree.merge_left {v w x : Value} (hw : w.WellFormed) (hv : Agree v x)
    (hwx : Agree w x) : Agree (v.merge w) x := by
  intro path a b ha hb
  obtain ⟨y, hy, hkind⟩ := at?_merge hw ha
  rw [hkind]
  rcases hy with hy | hy
  · exact hv path y b hy hb
  · exact hwx path y b hy hb

/-- Three values may be merged in either order if the lower two agree. -/
theorem merge_assoc {u v w : Value} (hu : u.WellFormed) (hv : v.WellFormed) (hw : w.WellFormed)
    (h : Agree v w) : (u.merge v).merge w = u.merge (v.merge w) := by
  induction u using members_induction generalizing v w with
  | step u ih =>
    cases hum : u.members? with
    | none => simp only [merge_of_left hum]
    | some members =>
      cases hwm : w.members? with
      | none => simp only [merge_of_right _ hwm]
      | some below =>
        obtain ⟨source, hvm⟩ : ∃ source, v.members? = some source :=
          Option.isSome_iff_exists.mp (by rw [h.members, hwm]; rfl)
        rw [eq_object_of_members? hum, eq_object_of_members? hvm, eq_object_of_members? hwm]
        simp only [merge_object]
        refine congrArg object (Table.mergeWith_assoc (hu.distinct hum) (hv.distinct hvm)
          (hw.distinct hwm) fun name a b c ha hb hc => ?_)
        exact ih members name a hum ha (hu.of_find? hum ha) (hv.of_find? hvm hb)
          (hw.of_find? hwm hc)
          (h.member (by rw [member?_eq hvm, hb]) (by rw [member?_eq hwm, hc]))

/-! ## Several values -/

theorem sizeOf_filterMap_find? (tables : List (Table Value)) (name : String) :
    sizeOf (tables.filterMap (Table.find? · name)) ≤ sizeOf tables := by
  induction tables with
  | nil => simp
  | cons head rest ih =>
    rw [List.filterMap_cons]
    cases h : Table.find? head name with
    | none => simp only [List.cons.sizeOf_spec]; omega
    | some w =>
      have := sizeOf_lt_of_find? h
      simp only [List.cons.sizeOf_spec]
      omega

/-- The members of the objects among several values. -/
def objects (values : List Value) : List (Table Value) := values.filterMap members?

theorem objects_cons_some {v : Value} {members : Table Value} (h : v.members? = some members)
    (values : List Value) : objects (v :: values) = members :: objects values :=
  List.filterMap_cons_some h

theorem objects_cons_none {v : Value} (h : v.members? = none) (values : List Value) :
    objects (v :: values) = objects values := List.filterMap_cons_none h

theorem sizeOf_objects (values : List Value) : sizeOf (objects values) ≤ sizeOf values := by
  induction values with
  | nil => simp [objects]
  | cons head rest ih =>
    unfold objects at ih ⊢
    rw [List.filterMap_cons]
    cases h : head.members? with
    | none => simp only [List.cons.sizeOf_spec]; omega
    | some members =>
      rw [eq_object_of_members? h]
      simp only [List.cons.sizeOf_spec, object.sizeOf_spec]
      omega

/-- Several values, the highest first, as one. If the highest one is an object, the result has the
members of all objects among them in the order in which they first come, each with the meaning of
the values that those objects give it; anything else stands alone. -/
def deep (v : Value) (below : List Value) : Value :=
  match v with
  | .object members =>
    let tables := members :: objects below
    .object ((tables.flatMap Table.names).eraseDups.filterMap fun name =>
      match _h : tables.filterMap (Table.find? · name) with
      | [] => none
      | value :: lower => some (name, deep value lower))
  | v => v
termination_by sizeOf v + sizeOf below
decreasing_by
  have hvalues := sizeOf_filterMap_find? (members :: objects below) name
  have hbelow := sizeOf_objects below
  rw [_h] at hvalues
  simp only [List.cons.sizeOf_spec, object.sizeOf_spec] at hvalues ⊢
  omega

theorem deep_object (members : Table Value) (below : List Value) :
    deep (.object members) below =
      .object (Table.join deep (members :: objects below)) := by
  rw [deep, Table.join]
  congr 2
  funext name
  split <;> rename_i h <;> rw [h] <;> rfl

theorem deep_of_not_object {v : Value} (h : v.members? = none) (below : List Value) :
    deep v below = v := by
  cases v <;> simp_all [deep, members?]

theorem foldl_merge_object (members : Table Value) (below : List Value) :
    below.foldl merge (.object members) =
      .object ((objects below).foldl (Table.mergeWith merge) members) := by
  induction below generalizing members with
  | nil => rfl
  | cons head rest ih =>
    cases h : head.members? with
    | none => rw [List.foldl_cons, merge_of_right _ h, ih, objects_cons_none h]
    | some source =>
      rw [List.foldl_cons, objects_cons_some h, List.foldl_cons, eq_object_of_members? h,
        merge_object, ih]

theorem foldl_merge_of_not_object {v : Value} (h : v.members? = none) (below : List Value) :
    below.foldl merge v = v := by
  induction below with
  | nil => rfl
  | cons head rest ih => rw [List.foldl_cons, merge_of_left h, ih]

/-- Values merged one after the other into the highest one. -/
theorem foldl_merge {v : Value} {below : List Value} (hv : v.WellFormed)
    (hbelow : ∀ w ∈ below, w.WellFormed) : below.foldl merge v = deep v below := by
  generalize hsize : sizeOf v + sizeOf below = size
  induction size using Nat.strongRecOn generalizing v below with
  | ind size ih =>
    cases hvm : v.members? with
    | none => rw [foldl_merge_of_not_object hvm, deep_of_not_object hvm]
    | some members =>
      obtain rfl := eq_object_of_members? hvm
      have htables : ∀ t ∈ members :: objects below, ∃ u : Value,
          u.WellFormed ∧ u.members? = some t := by
        intro t ht
        rcases List.mem_cons.mp ht with rfl | ht
        · exact ⟨_, hv, rfl⟩
        · obtain ⟨u, hu, hut⟩ := List.mem_filterMap.mp ht
          exact ⟨u, hbelow u hu, hut⟩
      have hdistinct : ∀ t ∈ members :: objects below, t.Distinct := by
        intro t ht
        obtain ⟨u, hu, hut⟩ := htables t ht
        exact hu.distinct hut
      rw [foldl_merge_object, deep_object, Table.foldl_mergeWith merge hdistinct]
      refine congrArg object (Table.join_congr fun name value lower hvalues => ?_)
      have hwf : ∀ w ∈ value :: lower, w.WellFormed := by
        intro w hw
        rw [← hvalues] at hw
        obtain ⟨t, ht, htw⟩ := List.mem_filterMap.mp hw
        obtain ⟨u, hu, hut⟩ := htables t ht
        exact hu.of_find? hut htw
      have hvalue := sizeOf_filterMap_find? (members :: objects below) name
      have hlower := sizeOf_objects below
      rw [hvalues] at hvalue
      simp only [List.cons.sizeOf_spec, object.sizeOf_spec] at hvalue hsize
      exact ih _ (by omega) (hwf value List.mem_cons_self)
        (fun w hw => hwf w (List.mem_cons_of_mem _ hw)) rfl

end LintFront.Value
