import LintFront.Proofs.Layers

/-!
# What readers promise

A table that is read holds each name once: a name that comes again takes the place of its first.
The promise goes through records and lists, so that it holds of every configuration that is read,
and no law about configurations has to ask for more than that.

* `Reader.Ensures`: whatever a reader accepts has a property; `Reader.EnsuresOn`: of some trees.
* `Reader.ensuresOn_readRecord`: records that are read from trees whose parts are such trees again.
* `Tree.wellFormed_of_toValue`: values of documents are well formed.
* `Configuration.wellFormed_of_read`: configurations of documents are well formed.
-/

namespace LintFront

/-! ## Outcomes -/

theorem bind_eq_ok_iff {ε α β : Type} {x : Except ε α} {f : α → Except ε β} {b : β} :
    x >>= f = .ok b ↔ ∃ a, x = .ok a ∧ f a = .ok b := by
  cases x with
  | error e =>
    constructor
    · intro h
      cases h
    · rintro ⟨a, ha, -⟩
      cases ha
  | ok a =>
    constructor
    · intro h
      exact ⟨a, rfl, h⟩
    · rintro ⟨a', ha, h⟩
      cases ha
      exact h

theorem map_eq_ok_iff {ε α β : Type} {x : Except ε α} {f : α → β} {b : β} :
    x.map f = .ok b ↔ ∃ a, x = .ok a ∧ f a = b := by
  cases x <;> simp [Except.map]

/-- Whether an outcome is a result that passes a check. -/
def passes {ε α : Type} (check : α → Bool) : Except ε α → Bool
  | .ok a => check a
  | .error _ => false

theorem exists_of_passes {ε α : Type} {check : α → Bool} {x : Except ε α}
    (h : passes check x = true) : ∃ a, x = .ok a ∧ check a = true := by
  cases x with
  | error e => cases h
  | ok a => exact ⟨a, rfl, h⟩

/-! ## Values -/

namespace Tree

theorem mismatch_ne_ok {α : Type} (t : Tree) (dialect : Dialect) (expected : String) (a : α) :
    t.mismatch dialect expected ≠ .ok a := by
  intro h
  obtain ⟨_, -, h⟩ := bind_eq_ok_iff.mp h
  cases h

mutual

theorem wellFormed_of_toValue : ∀ (t : Tree) (v : Value), t.toValue = .ok v → v.WellFormed
  | .null, v, h => by
    cases h
    exact .null
  | .bool b, v, h => by
    cases h
    exact .bool b
  | .number n, v, h => by
    obtain ⟨n, -, rfl⟩ := map_eq_ok_iff.mp h
    unfold numberValue
    split
    · split
      · exact .number _
      · exact .null
    · exact .number _
  | .text s, v, h => by
    obtain ⟨s, -, rfl⟩ := map_eq_ok_iff.mp h
    exact .text s
  | .list items stop, v, h => by
    obtain ⟨values, hvalues, h⟩ := bind_eq_ok_iff.mp h
    obtain ⟨_, -, h⟩ := bind_eq_ok_iff.mp h
    cases h
    exact .list (wellFormed_of_itemValues items values hvalues)
  | .object members stop, v, h => by
    obtain ⟨values, hvalues, h⟩ := bind_eq_ok_iff.mp h
    obtain ⟨_, -, h⟩ := bind_eq_ok_iff.mp h
    cases h
    have hempty : (Value.object []).WellFormed := .object Table.distinct_nil (by simp)
    exact wellFormed_of_memberValues members [] values hempty hvalues
  | .deep _, v, h => by cases h
  | .broken _, v, h => by cases h

theorem wellFormed_of_itemValues : ∀ (items : List Tree) (values : List Value),
    itemValues items = .ok values → ∀ v ∈ values, v.WellFormed
  | [], values, h => by
    cases h
    simp
  | t :: rest, values, h => by
    obtain ⟨value, hvalue, h⟩ := bind_eq_ok_iff.mp h
    obtain ⟨others, hothers, h⟩ := bind_eq_ok_iff.mp h
    cases h
    intro v hv
    rcases List.mem_cons.mp hv with rfl | hv
    · exact wellFormed_of_toValue t v hvalue
    · exact wellFormed_of_itemValues rest others hothers v hv

theorem wellFormed_of_memberValues : ∀ (members : List (Read String × Tree))
    (done values : List (String × Value)), (Value.object done).WellFormed →
    memberValues done members = .ok values → (Value.object values).WellFormed
  | [], done, values, hdone, h => by
    cases h
    exact hdone
  | (name, t) :: rest, done, values, hdone, h => by
    obtain ⟨name, -, h⟩ := bind_eq_ok_iff.mp h
    obtain ⟨value, hvalue, h⟩ := bind_eq_ok_iff.mp h
    have hv := wellFormed_of_toValue t value hvalue
    refine wellFormed_of_memberValues rest _ values ?_ h
    refine .object ((hdone.distinct rfl).upsert _ _) fun entry hentry => ?_
    rcases Table.mem_upsert hentry with hentry | rfl
    · exact hdone.of_find? rfl ((hdone.distinct rfl).find?_of_mem hentry)
    · exact hv

end

end Tree

/-! ## Readers -/

/-- The items or members of a tree, without their names. -/
def Tree.parts : Tree → List Tree
  | .list items _ => items
  | .object members _ => members.map Prod.snd
  | _ => []

namespace Reader

variable {α β : Type}

/-- Whatever the reader accepts has the property. -/
def Ensures (read : Reader α) (P : α → Prop) : Prop :=
  ∀ dialect t a, read dialect t = .ok a → P a

/-- Whatever the reader accepts of some trees has the property. -/
def EnsuresOn (T : Tree → Prop) (read : Reader α) (P : α → Prop) : Prop :=
  ∀ dialect t a, T t → read dialect t = .ok a → P a

theorem ensures_readValue : Ensures readValue Value.WellFormed :=
  fun _ t v h => t.wellFormed_of_toValue v h

theorem ensures_readOptional {read : Reader α} {P : α → Prop} (h : Ensures read P) :
    Ensures (readOptional read) fun o => ∀ a, o = some a → P a := by
  intro dialect t o ho a ha
  subst ha
  cases t with
  | null => cases ho
  | _ =>
    obtain ⟨b, hb, hba⟩ := map_eq_ok_iff.mp ho
    cases hba
    exact h _ _ _ hb

theorem ensures_readMembers {read : Reader α} {P : α → Prop} (h : Ensures read P)
    (dialect : Dialect) : ∀ (members : List (Read String × Tree)) (done t : Table α),
    done.Distinct → (∀ entry ∈ done, P entry.2) → readMembers read dialect done members = .ok t →
    t.Distinct ∧ ∀ entry ∈ t, P entry.2
  | [], done, t, hdone, hP, ht => by
    cases ht
    exact ⟨hdone, hP⟩
  | (name, tree) :: rest, done, t, hdone, hP, ht => by
    obtain ⟨name, -, ht⟩ := bind_eq_ok_iff.mp ht
    obtain ⟨value, hvalue, ht⟩ := bind_eq_ok_iff.mp ht
    refine ensures_readMembers h dialect rest _ t (hdone.upsert _ _) ?_ ht
    intro entry hentry
    rcases Table.mem_upsert hentry with hentry | rfl
    · exact hP entry hentry
    · exact h _ _ _ hvalue

theorem ensures_readTable {read : Reader α} {P : α → Prop} (h : Ensures read P) :
    Ensures (readTable read) fun t => t.Distinct ∧ ∀ entry ∈ t, P entry.2 := by
  intro dialect t table ht
  cases t with
  | object members stop =>
    obtain ⟨done, hdone, ht⟩ := bind_eq_ok_iff.mp ht
    obtain ⟨_, -, ht⟩ := bind_eq_ok_iff.mp ht
    cases ht
    exact ensures_readMembers h dialect members [] _ Table.distinct_nil (by simp) hdone
  | _ =>
    obtain ⟨_, -, ht⟩ := bind_eq_ok_iff.mp ht
    cases ht

section

variable {T : Tree → Prop} {read : Reader α} {P : α → Prop}

theorem ensuresOn_readItems (h : EnsuresOn T read P) (dialect : Dialect) {items : List Tree}
    {found : List α} (hitems : ∀ t ∈ items, T t)
    (hfound : readItems read dialect items = .ok found) : ∀ a ∈ found, P a := by
  induction items generalizing found with
  | nil =>
    cases hfound
    exact fun _ ha => absurd ha List.not_mem_nil
  | cons t rest ih =>
    obtain ⟨ht, hrest⟩ := List.forall_mem_cons.mp hitems
    obtain ⟨a, ha, hfound⟩ := bind_eq_ok_iff.mp hfound
    obtain ⟨others, hothers, hfound⟩ := bind_eq_ok_iff.mp hfound
    cases hfound
    exact List.forall_mem_cons.mpr ⟨h dialect t a ht ha, ih hrest hothers⟩

theorem ensuresOn_readList (hparts : ∀ t, T t → ∀ part ∈ t.parts, T part)
    (h : EnsuresOn T read P) : EnsuresOn T (readList read) fun found => ∀ a ∈ found, P a := by
  intro dialect t found ht hfound
  cases t with
  | list items stop =>
    obtain ⟨done, hdone, hfound⟩ := bind_eq_ok_iff.mp hfound
    obtain ⟨_, -, hfound⟩ := bind_eq_ok_iff.mp hfound
    cases hfound
    exact ensuresOn_readItems h dialect (hparts _ ht) hdone
  | _ => exact absurd hfound (Tree.mismatch_ne_ok _ _ _ _)

end

end Reader

/-! ## Records -/

namespace Field

variable {α β : Type}

/-- Reading the field keeps a property of the record. -/
def Keeps (field : Field α) (P : α → Prop) : Prop :=
  ∀ dialect t record record', P record → field.read dialect t record = .ok record' → P record'

/-- Reading the field from some trees keeps a property of the record. -/
def KeepsOn (field : Field α) (T : Tree → Prop) (P : α → Prop) : Prop :=
  ∀ dialect t record record', T t → P record → field.read dialect t record = .ok record' →
    P record'

theorem keeps_optional {read : Reader β} {Q : β → Prop} (hread : Reader.Ensures read Q)
    {P : α → Prop} {name : String} {set : α → Option β → α}
    (hset : ∀ record o, P record → (∀ b, o = some b → Q b) → P (set record o)) :
    (optional name read set).Keeps P := by
  intro dialect t record record' hrecord h
  obtain ⟨o, ho, h⟩ := bind_eq_ok_iff.mp h
  cases h
  exact hset record o hrecord (Reader.ensures_readOptional hread dialect t o ho)

/-- A field of which nothing is asked. -/
theorem keeps_optional_any {read : Reader β} {P : α → Prop} {name : String}
    {set : α → Option β → α} (hset : ∀ record o, P record → P (set record o)) :
    (optional name read set).Keeps P :=
  keeps_optional (Q := fun _ => True) (fun _ _ _ _ => trivial)
    fun record o hrecord _ => hset record o hrecord

section

variable {T : Tree → Prop} {P : α → Prop} {Q : β → Prop} {read : Reader β} {set : α → β → α}
  {field : Field α}

theorem keepsOn (hfield : field.read = fun dialect t record => return set record (← read dialect t))
    (hread : Reader.EnsuresOn T read Q) (hset : ∀ record b, P record → Q b → P (set record b)) :
    field.KeepsOn T P := by
  intro dialect t record record' ht hrecord h
  rw [hfield] at h
  obtain ⟨b, hb, h⟩ := bind_eq_ok_iff.mp h
  cases h
  exact hset record b hrecord (hread dialect t b ht hb)

/-- A field of which nothing is asked. -/
theorem keepsOn_any
    (hfield : field.read = fun dialect t record => return set record (← read dialect t))
    (hset : ∀ record b, P record → P (set record b)) : field.KeepsOn T P :=
  keepsOn hfield (Q := fun _ => True) (fun _ _ _ _ _ => trivial)
    fun record b hrecord _ => hset record b hrecord

end

theorem keeps_orNamed {field : Field α} {P : α → Prop} (h : field.Keeps P) (name : String) :
    (field.orNamed name).Keeps P := h

end Field

namespace Reader

variable {α : Type} {T : Tree → Prop} {P : α → Prop}

theorem ensuresOn_readFields {fields : List (Field α)} (h : ∀ field ∈ fields, field.KeepsOn T P)
    (dialect : Dialect) :
    ∀ (members : List (Read String × Tree)) (seen : List String) (record : α)
      (result : List String × α), (∀ member ∈ members, T member.2) → P record →
      readFields fields dialect seen record members = .ok result → P result.2
  | [], seen, record, result, _, hrecord, hresult => by
    cases hresult
    exact hrecord
  | (name, t) :: rest, seen, record, result, hmembers, hrecord, hresult => by
    obtain ⟨ht, hrest⟩ := List.forall_mem_cons.mp hmembers
    obtain ⟨name, -, hresult⟩ := bind_eq_ok_iff.mp hresult
    split at hresult
    · obtain ⟨_, -, hresult⟩ := bind_eq_ok_iff.mp hresult
      exact ensuresOn_readFields h dialect rest seen record result hrest hrecord hresult
    · rename_i field hfield
      split at hresult
      · cases hresult
      · obtain ⟨record', hrecord', hresult⟩ := bind_eq_ok_iff.mp hresult
        have hkept := h field (List.mem_of_find?_eq_some hfield) _ _ _ _ ht hrecord hrecord'
        exact ensuresOn_readFields h dialect rest _ record' result hrest hkept hresult

theorem ensuresOn_readPositions (expected : String) (stop : Option ReadFault) (dialect : Dialect) :
    ∀ (fields : List (Field α)) (items : List Tree) (index : Nat) (record : α)
      (result : α × List Tree), (∀ field ∈ fields, field.KeepsOn T P) → (∀ t ∈ items, T t) →
      P record → readPositions expected stop dialect index record fields items = .ok result →
      P result.1
  | [], items, index, record, result, _, _, hrecord, hresult => by
    cases hresult
    exact hrecord
  | field :: fields, [], index, record, result, h, hitems, hrecord, hresult => by
    obtain ⟨_, -, hresult⟩ := bind_eq_ok_iff.mp hresult
    split at hresult
    · cases hresult
    · exact ensuresOn_readPositions expected stop dialect fields [] _ record result
        (fun f hf => h f (List.mem_cons_of_mem _ hf)) hitems hrecord hresult
  | field :: fields, t :: items, index, record, result, h, hitems, hrecord, hresult => by
    obtain ⟨ht, hitems⟩ := List.forall_mem_cons.mp hitems
    obtain ⟨record', hrecord', hresult⟩ := bind_eq_ok_iff.mp hresult
    have hkept := h field List.mem_cons_self _ _ _ _ ht hrecord hrecord'
    exact ensuresOn_readPositions expected stop dialect fields items _ record' result
      (fun f hf => h f (List.mem_cons_of_mem _ hf)) hitems hkept hresult

/-- A record has a property if its defaults have it and no field takes it away. -/
theorem ensuresOn_readRecord {typeName : String} {fields : List (Field α)} {start : α}
    (hparts : ∀ t, T t → ∀ part ∈ t.parts, T part) (hstart : P start)
    (h : ∀ field ∈ fields, field.KeepsOn T P) :
    EnsuresOn T (readRecord typeName fields start) P := by
  intro dialect t a ht ha
  cases t with
  | object members stop =>
    have hmembers : ∀ member ∈ members, T member.2 := fun member hmember =>
      hparts _ ht _ (List.mem_map_of_mem hmember)
    obtain ⟨⟨seen, record⟩, hread, ha⟩ := bind_eq_ok_iff.mp ha
    obtain ⟨_, -, ha⟩ := bind_eq_ok_iff.mp ha
    have hrecord := ensuresOn_readFields h dialect members [] start _ hmembers hstart hread
    split at ha
    · cases ha
    · cases ha
      exact hrecord
  | list items stop =>
    obtain ⟨⟨record, left⟩, hread, ha⟩ := bind_eq_ok_iff.mp ha
    have hrecord := ensuresOn_readPositions _ stop dialect fields items 0 start _ h (hparts _ ht)
      hstart hread
    cases dialect with
    | relaxed =>
      cases ha
      exact hrecord
    | strict =>
      obtain ⟨_, -, ha⟩ := bind_eq_ok_iff.mp ha
      split at ha
      · cases ha
        exact hrecord
      · cases ha
    | value =>
      dsimp only at ha
      split at ha
      · cases ha
        exact hrecord
      · cases ha
  | _ =>
    obtain ⟨_, -, ha⟩ := bind_eq_ok_iff.mp ha
    cases ha

theorem ensures_readRecord {typeName : String} {fields : List (Field α)} {start : α}
    (hstart : P start) (h : ∀ field ∈ fields, field.Keeps P) :
    Ensures (readRecord typeName fields start) P := by
  have hread : EnsuresOn (fun _ => True) (readRecord typeName fields start) P :=
    ensuresOn_readRecord (fun _ _ _ _ => trivial) hstart
      fun field hfield dialect t record record' _ => h field hfield dialect t record record'
  exact fun dialect t a => hread dialect t a trivial

end Reader

/-! ## Configurations -/

theorem ensures_readSeverities :
    Reader.Ensures (readTable Severity.read) fun t => t.Distinct :=
  fun dialect t table h =>
    (Reader.ensures_readTable (P := fun _ => True) (fun _ _ _ _ => trivial) dialect t table h).1

theorem ensures_readOptions :
    Reader.Ensures (readTable readValue) fun t => (Value.object t).WellFormed := by
  intro dialect t table h
  obtain ⟨hdistinct, hvalues⟩ :=
    Reader.ensures_readTable Reader.ensures_readValue dialect t table h
  exact .object hdistinct hvalues

theorem ScopeOverride.wellFormed_of_read : Reader.Ensures read WellFormed := by
  refine Reader.ensures_readRecord ⟨by simp, by simp⟩ ?_
  simp only [fields, List.forall_mem_cons, List.not_mem_nil, false_imp_iff, implies_true,
    and_true]
  refine ⟨?_, ?_, ?_⟩
  · exact Field.keeps_optional_any fun s o hs => ⟨hs.severity, hs.linterConfig⟩
  · exact Field.keeps_optional ensures_readSeverities fun s o hs ho => ⟨ho, hs.linterConfig⟩
  · exact Field.keeps_optional ensures_readOptions fun s o hs ho => ⟨hs.severity, ho⟩

/-- Every configuration that is read holds each name once in each of its tables. -/
theorem Configuration.wellFormed_of_read : Reader.Ensures read WellFormed := by
  have hscopes := Reader.ensures_readTable ScopeOverride.wellFormed_of_read
  refine Reader.ensures_readRecord ⟨by simp, by simp, by simp, by simp⟩ ?_
  simp only [fields, List.forall_mem_cons, List.not_mem_nil, false_imp_iff, implies_true,
    and_true]
  refine ⟨?_, ?_, ?_, ?_, ?_, ?_, ?_, ?_, ?_, ?_, ?_⟩
  · exact Field.keeps_optional_any fun c _ hc => ⟨hc.severity, hc.linterConfig, hc.scopes, hc.scope⟩
  · exact Field.keeps_optional_any fun c _ hc => ⟨hc.severity, hc.linterConfig, hc.scopes, hc.scope⟩
  · exact Field.keeps_optional_any fun c _ hc => ⟨hc.severity, hc.linterConfig, hc.scopes, hc.scope⟩
  · exact Field.keeps_optional_any fun c _ hc => ⟨hc.severity, hc.linterConfig, hc.scopes, hc.scope⟩
  · exact Field.keeps_optional_any fun c _ hc => ⟨hc.severity, hc.linterConfig, hc.scopes, hc.scope⟩
  · exact Field.keeps_optional_any fun c _ hc => ⟨hc.severity, hc.linterConfig, hc.scopes, hc.scope⟩
  · exact Field.keeps_orNamed (Field.keeps_optional_any fun c _ hc =>
      ⟨hc.severity, hc.linterConfig, hc.scopes, hc.scope⟩) "extends"
  · exact Field.keeps_optional ensures_readOptions fun c o hc ho =>
      ⟨hc.severity, ho, hc.scopes, hc.scope⟩
  · exact Field.keeps_optional_any fun c _ hc => ⟨hc.severity, hc.linterConfig, hc.scopes, hc.scope⟩
  · exact Field.keeps_optional ensures_readSeverities fun c o hc ho =>
      ⟨ho, hc.linterConfig, hc.scopes, hc.scope⟩
  · exact Field.keeps_optional hscopes fun c o hc ho =>
      ⟨hc.severity, hc.linterConfig, fun t ht => (ho t ht).1, fun t ht => (ho t ht).2⟩

end LintFront
