import LintFront.Document.Relaxed
import LintFront.Proofs.Reading
import Mathlib.Data.List.Forall2

/-!
# Documents that are read twice

A configuration has a file of its own, which is fitted to the type while it is read, or it is a
field of a manifest, which is read as a value before the field is fitted. The value knows less than
the text: a name that comes again has taken the place of its first one, and a number that is none
has become null. What a reader finds does not depend on that. It follows from the value alone,
wherever the reader accepts the document at all.

* `Reader.Finds`: what a reader finds in documents with a value.
* `Reader.Determined`: it finds one thing at most, whatever the documents are like.
* `Reader.determined_readTable`, `Reader.determined_readRecord`: so it is for tables and records.
* `Value.Settled`: a value that is read again as it is, `Tree.settled_of_toValue`: as all are that
  have been read.
* `Configuration.ofValue_readValue`: a configuration means the same in a file and in a manifest.
-/

namespace LintFront

/-! ## Tables entry by entry -/

namespace Table

variable {α β : Type}

/-- Two tables have the same names in the same order, and at each of them related values. -/
def Paired (R : α → β → Prop) : Table α → Table β → Prop :=
  List.Forall₂ fun x y => x.1 = y.1 ∧ R x.2 y.2

theorem Paired.put {R : α → β → Prop} {t : Table α} {u : Table β} (h : Paired R t u)
    (name : String) {a : α} {b : β} (hab : R a b) : Paired R (t.put name a) (u.put name b) := by
  induction h with
  | nil => exact .cons ⟨rfl, hab⟩ .nil
  | @cons x y t u hxy htu ih =>
    obtain ⟨key, a'⟩ := x
    obtain ⟨key', b'⟩ := y
    obtain ⟨rfl, hold⟩ : key = key' ∧ R a' b' := hxy
    simp only [Table.put, Table.upsert]
    split
    · exact .cons ⟨rfl, hab⟩ htu
    · exact .cons ⟨rfl, hold⟩ ih

theorem leftUnique_paired {R : α → β → Prop} (h : Relator.LeftUnique R) :
    Relator.LeftUnique (Paired R) := by
  refine Relator.LeftUnique.forall₂ ?_
  rintro ⟨name, a⟩ ⟨name', a'⟩ ⟨key, b⟩ ⟨hname, hab⟩ ⟨hname', hab'⟩
  obtain rfl : name = key := hname
  obtain rfl : name' = name := hname'
  have heq : a = a' := h hab hab'
  rw [heq]

theorem filterMap_put_of_none {f : String × α → Option β} {name : String}
    (h : ∀ a, f (name, a) = none) (t : Table α) (a : α) :
    (t.put name a).filterMap f = t.filterMap f := by
  induction t with
  | nil => simp [Table.put, Table.upsert, h]
  | cons entry rest ih =>
    obtain ⟨key, value⟩ := entry
    simp only [Table.put, Table.upsert] at ih ⊢
    split
    · rename_i hkey
      obtain rfl : key = name := by simpa using hkey
      simp [h]
    · rw [List.filterMap_cons, List.filterMap_cons, ih]

end Table

/-! ## Values of documents -/

namespace Tree

theorem toValue_list {items : List Tree} {stop : Option ReadFault} {v : Value}
    (h : (Tree.list items stop).toValue = .ok v) :
    ∃ values, itemValues items = .ok values ∧ v = .list values := by
  obtain ⟨values, hvalues, h⟩ := bind_eq_ok_iff.mp h
  obtain ⟨_, -, h⟩ := bind_eq_ok_iff.mp h
  cases h
  exact ⟨values, hvalues, rfl⟩

theorem toValue_object {members : List (Read String × Tree)} {stop : Option ReadFault} {v : Value}
    (h : (Tree.object members stop).toValue = .ok v) :
    ∃ values, memberValues [] members = .ok values ∧ v = .object values := by
  obtain ⟨values, hvalues, h⟩ := bind_eq_ok_iff.mp h
  obtain ⟨_, -, h⟩ := bind_eq_ok_iff.mp h
  cases h
  exact ⟨values, hvalues, rfl⟩

theorem memberValues_cons {done values : List (String × Value)} {name : Read String} {t : Tree}
    {rest : List (Read String × Tree)} (h : memberValues done ((name, t) :: rest) = .ok values) :
    ∃ key value, name = .ok key ∧ t.toValue = .ok value ∧
      memberValues (Table.put done key value) rest = .ok values := by
  obtain ⟨key, hkey, h⟩ := bind_eq_ok_iff.mp h
  obtain ⟨value, hvalue, h⟩ := bind_eq_ok_iff.mp h
  exact ⟨key, value, hkey, hvalue, h⟩

/-- What has been read keeps its place. -/
theorem names_prefix_of_memberValues {members : List (Read String × Tree)}
    {done values : List (String × Value)} (h : memberValues done members = .ok values) :
    Table.names done <+: Table.names values := by
  induction members generalizing done with
  | nil =>
    cases h
    exact List.prefix_refl _
  | cons member rest ih =>
    obtain ⟨key, value, -, -, h⟩ := memberValues_cons h
    refine List.IsPrefix.trans ?_ (ih h)
    rw [Table.put, Table.names_upsert]
    split
    · exact List.prefix_refl _
    · exact List.prefix_append _ _

end Tree

/-! ## Readers that follow the value -/

namespace Reader

variable {α : Type}

/-- The reader finds something in a document that has a value. -/
def Finds (read : Reader α) (a : α) (v : Value) : Prop :=
  ∃ dialect t, t.toValue = .ok v ∧ read dialect t = .ok a

/-- In documents with the same value the reader finds the same. -/
def Determined (read : Reader α) : Prop := Relator.LeftUnique read.Finds

theorem determined_readValue : Determined readValue := by
  rintro a b v ⟨_, t, ht, ha⟩ ⟨_, t', ht', hb⟩
  have hav : Except.ok v = Except.ok a := ht.symm.trans ha
  have hbv : Except.ok v = Except.ok b := ht'.symm.trans hb
  cases hav
  cases hbv
  rfl

theorem finds_readText {expected s : String} {v : Value} (h : (readText expected).Finds s v) :
    v = .text s := by
  obtain ⟨dialect, t, hv, hs⟩ := h
  cases t with
  | text x =>
    obtain ⟨y, rfl, rfl⟩ := map_eq_ok_iff.mp hv
    cases hs
    rfl
  | _ => exact absurd hs (Tree.mismatch_ne_ok _ _ _ _)

theorem determined_readText (expected : String) : Determined (readText expected) := by
  intro s s' v hs hs'
  have h := (finds_readText hs).symm.trans (finds_readText hs')
  cases h
  rfl

theorem finds_readBool {b : Bool} {v : Value} (h : readBool.Finds b v) : v = .bool b := by
  obtain ⟨dialect, t, hv, hb⟩ := h
  cases t with
  | bool x =>
    cases hv
    cases hb
    rfl
  | _ => exact absurd hb (Tree.mismatch_ne_ok _ _ _ _)

theorem determined_readBool : Determined readBool := by
  intro b b' v hb hb'
  have h := (finds_readBool hb).symm.trans (finds_readBool hb')
  cases h
  rfl

/-! ### Lists and tables -/

theorem forall₂_of_readItems {read : Reader α} {dialect : Dialect} {items : List Tree}
    {found : List α} {values : List Value} (h : readItems read dialect items = .ok found)
    (hvalues : Tree.itemValues items = .ok values) : List.Forall₂ read.Finds found values := by
  induction items generalizing found values with
  | nil =>
    cases h
    cases hvalues
    exact .nil
  | cons t rest ih =>
    obtain ⟨a, ha, h⟩ := bind_eq_ok_iff.mp h
    obtain ⟨others, hothers, h⟩ := bind_eq_ok_iff.mp h
    cases h
    obtain ⟨v, hv, hvalues⟩ := bind_eq_ok_iff.mp hvalues
    obtain ⟨vs, hvs, hvalues⟩ := bind_eq_ok_iff.mp hvalues
    cases hvalues
    exact .cons ⟨dialect, t, hv, ha⟩ (ih hothers hvs)

theorem finds_readList {read : Reader α} {found : List α} {v : Value}
    (h : (readList read).Finds found v) :
    ∃ values, v = .list values ∧ List.Forall₂ read.Finds found values := by
  obtain ⟨dialect, t, hv, h⟩ := h
  cases t with
  | list items stop =>
    obtain ⟨values, hvalues, rfl⟩ := Tree.toValue_list hv
    obtain ⟨done, hdone, h⟩ := bind_eq_ok_iff.mp h
    obtain ⟨_, -, h⟩ := bind_eq_ok_iff.mp h
    cases h
    exact ⟨values, rfl, forall₂_of_readItems hdone hvalues⟩
  | _ => exact absurd h (Tree.mismatch_ne_ok _ _ _ _)

theorem determined_readList {read : Reader α} (h : Determined read) :
    Determined (readList read) := by
  intro found found' v hfound hfound'
  obtain ⟨values, rfl, hall⟩ := finds_readList hfound
  obtain ⟨values', hvalues, hall'⟩ := finds_readList hfound'
  cases hvalues
  exact Relator.LeftUnique.forall₂ h hall hall'

/-- A name that comes again takes the place of its first one in the table and in the value. -/
theorem paired_of_readMembers {read : Reader α} {dialect : Dialect}
    {members : List (Read String × Tree)} {done table : Table α} {seen values : Table Value}
    (hdone : done.Paired read.Finds seen) (h : readMembers read dialect done members = .ok table)
    (hvalues : Tree.memberValues seen members = .ok values) : table.Paired read.Finds values := by
  induction members generalizing done seen with
  | nil =>
    cases h
    cases hvalues
    exact hdone
  | cons member rest ih =>
    obtain ⟨name, hname, h⟩ := bind_eq_ok_iff.mp h
    obtain ⟨a, ha, h⟩ := bind_eq_ok_iff.mp h
    obtain ⟨key, v, hkey, hv, hvalues⟩ := Tree.memberValues_cons hvalues
    obtain rfl : name = key := Except.ok.inj (hname.symm.trans hkey)
    exact ih (hdone.put name ⟨dialect, _, hv, ha⟩) h hvalues

theorem finds_readTable {read : Reader α} {table : Table α} {v : Value}
    (h : (readTable read).Finds table v) :
    ∃ values, v = .object values ∧ table.Paired read.Finds values := by
  obtain ⟨dialect, t, hv, h⟩ := h
  cases t with
  | object members stop =>
    obtain ⟨values, hvalues, rfl⟩ := Tree.toValue_object hv
    obtain ⟨done, hdone, h⟩ := bind_eq_ok_iff.mp h
    obtain ⟨_, -, h⟩ := bind_eq_ok_iff.mp h
    cases h
    exact ⟨values, rfl, paired_of_readMembers .nil hdone hvalues⟩
  | _ => exact absurd h (Tree.mismatch_ne_ok _ _ _ _)

theorem determined_readTable {read : Reader α} (h : Determined read) :
    Determined (readTable read) := by
  intro table table' v htable htable'
  obtain ⟨values, rfl, hall⟩ := finds_readTable htable
  obtain ⟨values', hvalues, hall'⟩ := finds_readTable htable'
  cases hvalues
  exact Table.leftUnique_paired h hall hall'

/-! ### Names -/

/-- A variant is that of a text, or that of the first name in an object. -/
theorem finds_readVariant {variants : Table α} {a : α} {v : Value}
    (h : (readVariant variants).Finds a v) :
    ∃ name, lookupVariant variants name = .ok a ∧
      (v = .text name ∨ ∃ w rest, v = .object ((name, w) :: rest)) := by
  obtain ⟨dialect, t, hv, h⟩ := h
  -- The first name in an object is the first one in its value.
  have hfirst : ∀ {name : Read String} {inner : Tree} {rest : List (Read String × Tree)}
      {stop : Option ReadFault} {key : String}, t = .object ((name, inner) :: rest) stop →
      name = .ok key → lookupVariant variants key = .ok a →
      ∃ name, lookupVariant variants name = .ok a ∧
        (v = .text name ∨ ∃ w rest, v = .object ((name, w) :: rest)) := by
    rintro name inner rest stop key rfl rfl hkey
    obtain ⟨values, hvalues, rfl⟩ := Tree.toValue_object hv
    obtain ⟨key', w, hname, -, hvalues⟩ := Tree.memberValues_cons hvalues
    cases hname
    have hnames := Tree.names_prefix_of_memberValues hvalues
    cases values with
    | nil => simp [Table.put, Table.upsert, Table.names] at hnames
    | cons entry others =>
      obtain ⟨first, w'⟩ := entry
      obtain ⟨rfl, -⟩ := List.cons_prefix_cons.mp hnames
      exact ⟨_, hkey, Or.inr ⟨w', others, rfl⟩⟩
  cases t with
  | text s =>
    obtain ⟨name, hname, hv⟩ := map_eq_ok_iff.mp hv
    subst hv
    have h' : (s >>= lookupVariant variants) = .ok a := by cases dialect <;> exact h
    obtain ⟨name', hname', h'⟩ := bind_eq_ok_iff.mp h'
    obtain rfl : name = name' := Except.ok.inj (hname.symm.trans hname')
    exact ⟨name, h', Or.inl rfl⟩
  | object members stop =>
    cases members with
    | nil =>
      cases dialect with
      | relaxed => cases h
      | strict =>
        obtain ⟨_, -, h⟩ := bind_eq_ok_iff.mp h
        cases h
      | value => cases h
    | cons member rest =>
      obtain ⟨name, inner⟩ := member
      cases dialect with
      | relaxed =>
        obtain ⟨key, hkey, h⟩ := bind_eq_ok_iff.mp h
        exact hfirst rfl hkey h
      | strict =>
        obtain ⟨key, hkey, h⟩ := bind_eq_ok_iff.mp h
        obtain ⟨a', ha', h⟩ := bind_eq_ok_iff.mp h
        cases inner with
        | null =>
          dsimp only at h
          split at h
          · obtain ⟨_, -, h⟩ := bind_eq_ok_iff.mp h
            cases h
            exact hfirst rfl hkey ha'
          · cases h
        | _ => exact absurd h (Tree.mismatch_ne_ok _ _ _ _)
      | value =>
        cases rest with
        | cons next others => cases h
        | nil =>
          obtain ⟨key, hkey, h⟩ := bind_eq_ok_iff.mp h
          obtain ⟨a', ha', h⟩ := bind_eq_ok_iff.mp h
          cases inner with
          | null =>
            cases h
            exact hfirst rfl hkey ha'
          | _ => exact absurd h (Tree.mismatch_ne_ok _ _ _ _)
  | _ =>
    cases dialect with
    | relaxed => cases h
    | strict => cases h
    | value => exact absurd h (Tree.mismatch_ne_ok _ _ _ _)

theorem determined_readVariant (variants : Table α) : Determined (readVariant variants) := by
  intro a b v ha hb
  obtain ⟨name, ha, hv⟩ := finds_readVariant ha
  obtain ⟨name', hb, hv'⟩ := finds_readVariant hb
  have hname : name = name' := by
    rcases hv with rfl | ⟨w, rest, rfl⟩ <;> rcases hv' with hv' | ⟨w', rest', hv'⟩ <;> cases hv' <;>
      rfl
  subst hname
  exact Except.ok.inj (ha.symm.trans hb)

/-! ### Null -/

/-- The reader finds nothing in a document that is null as a value. -/
def RefusesNull (read : Reader α) : Prop := ∀ a, ¬ read.Finds a .null

theorem finds_readOptional {read : Reader α} {o : Option α} {v : Value}
    (h : (readOptional read).Finds o v) :
    o = none ∧ v = .null ∨ ∃ a, o = some a ∧ read.Finds a v := by
  obtain ⟨dialect, t, hv, ho⟩ := h
  cases t with
  | null =>
    cases hv
    cases ho
    exact Or.inl ⟨rfl, rfl⟩
  | _ =>
    obtain ⟨a, ha, rfl⟩ := map_eq_ok_iff.mp ho
    exact Or.inr ⟨a, rfl, dialect, _, hv, ha⟩

/-- A number that is none would be nothing in the value only, if the reader took numbers. -/
theorem determined_readOptional {read : Reader α} (h : Determined read) (hnull : RefusesNull read) :
    Determined (readOptional read) := by
  intro o o' v ho ho'
  rcases finds_readOptional ho with ⟨rfl, rfl⟩ | ⟨a, rfl, ha⟩
  · rcases finds_readOptional ho' with ⟨rfl, -⟩ | ⟨a', rfl, ha'⟩
    · rfl
    · exact absurd ha' (hnull a')
  · rcases finds_readOptional ho' with ⟨rfl, rfl⟩ | ⟨a', rfl, ha'⟩
    · exact absurd ha (hnull a)
    · rw [h ha ha']

theorem refusesNull_readText (expected : String) : RefusesNull (readText expected) :=
  fun _ h => nomatch finds_readText h

theorem refusesNull_readBool : RefusesNull readBool := fun _ h => nomatch finds_readBool h

theorem refusesNull_readList (read : Reader α) : RefusesNull (readList read) := by
  intro found h
  obtain ⟨_, hv, -⟩ := finds_readList h
  cases hv

theorem refusesNull_readTable (read : Reader α) : RefusesNull (readTable read) := by
  intro table h
  obtain ⟨_, hv, -⟩ := finds_readTable h
  cases hv

end Reader

/-! ## Records -/

namespace Field

variable {α β : Type}

/-- The field reads something into a record from a document that has a value. -/
def Finds (field : Field α) (record next : α) (v : Value) : Prop :=
  ∃ dialect t, t.toValue = .ok v ∧ field.read dialect t record = .ok next

/-- From documents with the same value the field reads the same into a record. -/
def Determined (field : Field α) : Prop := ∀ record, Relator.LeftUnique (field.Finds record)

theorem determined_optional {read : Reader β} (h : read.Determined) (hnull : read.RefusesNull)
    (name : String) (set : α → Option β → α) : (optional name read set).Determined := by
  rintro record next next' v ⟨dialect, t, hv, hnext⟩ ⟨dialect', t', hv', hnext'⟩
  obtain ⟨o, ho, hnext⟩ := bind_eq_ok_iff.mp hnext
  obtain ⟨o', ho', hnext'⟩ := bind_eq_ok_iff.mp hnext'
  cases hnext
  cases hnext'
  rw [Reader.determined_readOptional h hnull ⟨dialect, t, hv, ho⟩ ⟨dialect', t', hv', ho'⟩]

theorem Determined.orNamed {field : Field α} (h : field.Determined) (name : String) :
    (field.orNamed name).Determined := h

end Field

/-- Fields are read into a record one after the other, each from a document with its value. -/
inductive Fills {α : Type} : List (Field α × Value) → α → α → Prop
  | done (record : α) : Fills [] record record
  | next {field : Field α} {v : Value} {rest : List (Field α × Value)} {record next last : α}
      (hnext : field.Finds record next v) (hrest : Fills rest next last) :
      Fills ((field, v) :: rest) record last

theorem Fills.unique {α : Type} {pairs : List (Field α × Value)}
    (h : ∀ pair ∈ pairs, pair.1.Determined) {record last last' : α}
    (hlast : Fills pairs record last) (hlast' : Fills pairs record last') : last = last' := by
  induction hlast with
  | done =>
    cases hlast'
    rfl
  | next hnext _ ih =>
    cases hlast' with
    | next hnext' hrest' =>
      obtain ⟨hfield, hrest⟩ := List.forall_mem_cons.mp h
      obtain rfl := hfield _ hnext hnext'
      exact ih hrest hrest'

namespace Field

variable {α : Type}

/-- The field that a member of an object is read into, if there is one. -/
def ofMember (fields : List (Field α)) (member : String × Value) : Option (Field α × Value) :=
  (fields.find? (·.isNamed member.1)).map fun field => (field, member.2)

/-- The fields that a value gives, by their names or by their places. -/
def given (fields : List (Field α)) : Value → List (Field α × Value)
  | .object members => members.filterMap (ofMember fields)
  | .list items => fields.zip items
  | _ => []

theorem mem_of_mem_given {fields : List (Field α)} {v : Value} {pair : Field α × Value}
    (h : pair ∈ given fields v) : pair.1 ∈ fields := by
  cases v with
  | object members =>
    obtain ⟨member, -, hmember⟩ := List.mem_filterMap.mp h
    obtain ⟨field, hfield, rfl⟩ := Option.map_eq_some_iff.mp hmember
    exact List.mem_of_find?_eq_some hfield
  | list items => exact (List.of_mem_zip h).1
  | _ => cases h

end Field

namespace Reader

variable {α : Type} {fields : List (Field α)}

/-- A known name that comes again is an error, and an unknown one is passed over. So the members
with known names are all there in the value, in their order. -/
theorem fills_of_readFields {dialect : Dialect} {members : List (Read String × Tree)}
    {seen seen' : List String} {record last : α} {done values : Table Value}
    (hseen : ∀ name ∈ Table.names done, ∀ field, fields.find? (·.isNamed name) = some field →
      field.name ∈ seen)
    (h : readFields fields dialect seen record members = .ok (seen', last))
    (hvalues : Tree.memberValues done members = .ok values) :
    ∃ pairs, values.filterMap (Field.ofMember fields) =
      done.filterMap (Field.ofMember fields) ++ pairs ∧ Fills pairs record last := by
  induction members generalizing seen record done with
  | nil =>
    cases h
    cases hvalues
    exact ⟨[], (List.append_nil _).symm, .done _⟩
  | cons member rest ih =>
    obtain ⟨name, t⟩ := member
    obtain ⟨key, v, rfl, hv, hvalues⟩ := Tree.memberValues_cons hvalues
    obtain ⟨name, hname, h⟩ := bind_eq_ok_iff.mp h
    cases hname
    have hnames : ∀ other ∈ Table.names (Table.put done key v),
        other ∈ Table.names done ∨ other = key := by
      intro other hother
      rw [Table.put, Table.names_upsert] at hother
      split at hother
      · exact Or.inl hother
      · exact (List.mem_append.mp hother).imp_right List.mem_singleton.mp
    split at h
    · rename_i hnone
      obtain ⟨_, -, h⟩ := bind_eq_ok_iff.mp h
      have hkept : (Table.put done key v).filterMap (Field.ofMember fields) =
          done.filterMap (Field.ofMember fields) :=
        Table.filterMap_put_of_none (fun a => by simp [Field.ofMember, hnone]) done v
      rw [← hkept]
      refine ih (fun other hother field hfield => ?_) h hvalues
      rcases hnames other hother with hother | rfl
      · exact hseen other hother field hfield
      · rw [hnone] at hfield
        cases hfield
    · rename_i field hfield
      split at h
      · cases h
      · rename_i hnew
        obtain ⟨next, hnext, h⟩ := bind_eq_ok_iff.mp h
        have hfresh : key ∉ Table.names done := by
          intro hmem
          exact hnew (by simpa using hseen key hmem field hfield)
        have hput : (Table.put done key v).filterMap (Field.ofMember fields) =
            done.filterMap (Field.ofMember fields) ++ [(field, v)] := by
          rw [Table.put_of_not_mem hfresh, List.filterMap_append]
          simp [Field.ofMember, hfield]
        obtain ⟨pairs, hpairs, hfills⟩ := ih (fun other hother f hf => by
          rcases hnames other hother with hother | rfl
          · exact List.mem_cons_of_mem _ (hseen other hother f hf)
          · obtain rfl := Option.some.inj (hfield.symm.trans hf)
            exact List.mem_cons_self) h hvalues
        refine ⟨(field, v) :: pairs, ?_, .next ⟨dialect, t, hv, hnext⟩ hfills⟩
        rw [hpairs, hput, List.append_assoc, List.singleton_append]

theorem fills_of_readPositions {expected : String} {stop : Option ReadFault} {dialect : Dialect}
    {index : Nat} {record last : α} {items left : List Tree} {values : List Value}
    (h : readPositions expected stop dialect index record fields items = .ok (last, left))
    (hvalues : Tree.itemValues items = .ok values) : Fills (fields.zip values) record last := by
  induction fields generalizing index record items values with
  | nil =>
    cases h
    exact .done _
  | cons field others ih =>
    cases items with
    | nil =>
      cases hvalues
      obtain ⟨_, -, h⟩ := bind_eq_ok_iff.mp h
      split at h
      · cases h
      · have hrest := ih h rfl
        rwa [List.zip_nil_right] at hrest ⊢
    | cons t rest =>
      obtain ⟨next, hnext, h⟩ := bind_eq_ok_iff.mp h
      obtain ⟨v, hv, hvalues⟩ := bind_eq_ok_iff.mp hvalues
      obtain ⟨vs, hvs, hvalues⟩ := bind_eq_ok_iff.mp hvalues
      cases hvalues
      exact .next ⟨dialect, t, hv, hnext⟩ (ih h hvs)

/-- A record is filled with what its fields find in the value. -/
theorem finds_readRecord {typeName : String} {start record : α} {v : Value}
    (h : (readRecord typeName fields start).Finds record v) :
    Fills (Field.given fields v) start record := by
  obtain ⟨dialect, t, hv, h⟩ := h
  cases t with
  | object members stop =>
    obtain ⟨values, hvalues, rfl⟩ := Tree.toValue_object hv
    obtain ⟨⟨seen, last⟩, hread, h⟩ := bind_eq_ok_iff.mp h
    obtain ⟨_, -, h⟩ := bind_eq_ok_iff.mp h
    split at h
    · cases h
    · cases h
      have hnone : ∀ name ∈ Table.names ([] : Table Value), ∀ field,
          fields.find? (·.isNamed name) = some field → field.name ∈ ([] : List String) :=
        fun _ hname => absurd hname List.not_mem_nil
      obtain ⟨pairs, hpairs, hfills⟩ := fills_of_readFields hnone hread hvalues
      rw [List.filterMap_nil, List.nil_append] at hpairs
      rwa [Field.given, hpairs]
  | list items stop =>
    obtain ⟨values, hvalues, rfl⟩ := Tree.toValue_list hv
    obtain ⟨⟨last, left⟩, hread, h⟩ := bind_eq_ok_iff.mp h
    have hfills : Fills (Field.given fields (.list values)) start last :=
      fills_of_readPositions hread hvalues
    cases dialect with
    | relaxed =>
      cases h
      exact hfills
    | strict =>
      obtain ⟨_, -, h⟩ := bind_eq_ok_iff.mp h
      split at h
      · cases h
        exact hfills
      · cases h
    | value =>
      dsimp only at h
      split at h
      · cases h
        exact hfills
      · cases h
  | _ => exact absurd h (Tree.mismatch_ne_ok _ _ _ _)

theorem determined_readRecord {typeName : String} {start : α}
    (h : ∀ field ∈ fields, field.Determined) : Determined (readRecord typeName fields start) := by
  intro record record' v hrecord hrecord'
  exact Fills.unique (fun _ hpair => h _ (Field.mem_of_mem_given hpair))
    (finds_readRecord hrecord) (finds_readRecord hrecord')

end Reader

/-! ## Configurations -/

theorem determined_readTexts : readTexts.Determined :=
  Reader.determined_readList (Reader.determined_readText _)

theorem Severity.determined_read : Reader.Determined read := Reader.determined_readVariant names

theorem ScopeOverride.determined_read : Reader.Determined read := by
  refine Reader.determined_readRecord ?_
  simp only [fields, List.forall_mem_cons, List.not_mem_nil, false_imp_iff, implies_true, and_true]
  refine ⟨?_, ?_, ?_⟩
  · exact Field.determined_optional determined_readTexts (Reader.refusesNull_readList _) _ _
  · exact Field.determined_optional (Reader.determined_readTable Severity.determined_read)
      (Reader.refusesNull_readTable _) _ _
  · exact Field.determined_optional (Reader.determined_readTable Reader.determined_readValue)
      (Reader.refusesNull_readTable _) _ _

/-- Documents with the same value are the same configuration, however they are written. -/
theorem Configuration.determined_read : Reader.Determined read := by
  have htexts : ∀ name set,
      (Field.optional (α := Configuration) name readTexts set).Determined :=
    Field.determined_optional determined_readTexts (Reader.refusesNull_readList _)
  refine Reader.determined_readRecord ?_
  simp only [fields, List.forall_mem_cons, List.not_mem_nil, false_imp_iff, implies_true, and_true]
  refine ⟨?_, ?_, htexts _ _, htexts _ _, htexts _ _, htexts _ _, (htexts _ _).orNamed _, ?_,
    htexts _ _, ?_, ?_⟩
  · exact Field.determined_optional (Reader.determined_readText _)
      (Reader.refusesNull_readText _) _ _
  · exact Field.determined_optional Reader.determined_readBool Reader.refusesNull_readBool _ _
  · exact Field.determined_optional (Reader.determined_readTable Reader.determined_readValue)
      (Reader.refusesNull_readTable _) _ _
  · exact Field.determined_optional (Reader.determined_readTable Severity.determined_read)
      (Reader.refusesNull_readTable _) _ _
  · exact Field.determined_optional (Reader.determined_readTable ScopeOverride.determined_read)
      (Reader.refusesNull_readTable _) _ _

/-! ## Values read again -/

/-- Values are read like items of any other type. -/
theorem Tree.itemValues_eq (items : List Tree) :
    itemValues items = readItems readValue .value items := by
  induction items with
  | nil => rfl
  | cons t rest ih =>
    rw [itemValues, ih]
    rfl

theorem Tree.memberValues_eq (done : Table Value) (members : List (Read String × Tree)) :
    memberValues done members = readMembers readValue .value done members := by
  induction members generalizing done with
  | nil => rfl
  | cons member rest ih =>
    obtain ⟨name, t⟩ := member
    rw [memberValues, readMembers]
    simp only [ih]
    rfl

namespace Reader

variable {α : Type} {read : Reader α} {dialect : Dialect}

theorem readItems_itemTrees {found : List α} {items : List Value}
    (h : List.Forall₂ (fun a v => read dialect v.toTree = .ok a) found items) :
    readItems read dialect (Value.itemTrees items) = .ok found := by
  induction h with
  | nil => rfl
  | @cons a v found items hv _ ih =>
    exact bind_eq_ok_iff.mpr ⟨a, hv, bind_eq_ok_iff.mpr ⟨found, ih, rfl⟩⟩

theorem readMembers_memberTrees {t : Table α} {members : Table Value}
    (h : t.Paired (fun a v => read dialect v.toTree = .ok a) members) (done : Table α) :
    readMembers read dialect done (Value.memberTrees members) =
      .ok (Table.mergeWith (fun _ a => a) done t) := by
  induction h generalizing done with
  | nil => rfl
  | @cons x y t members hxy _ ih =>
    obtain ⟨name, a⟩ := x
    obtain ⟨key, v⟩ := y
    obtain ⟨rfl, hv⟩ : name = key ∧ read dialect v.toTree = .ok a := hxy
    refine bind_eq_ok_iff.mpr ⟨name, rfl, bind_eq_ok_iff.mpr ⟨a, hv, ?_⟩⟩
    rw [ih, Table.mergeWith_cons, Table.put]
    congr 3
    funext present
    cases present <;> rfl

end Reader

/-- A value that is read again comes out as it is: its objects hold each name once, and its doubles
are numbers. -/
def Value.Settled (v : Value) : Prop := v.toTree.toValue = .ok v

namespace Value

theorem settled_list {items : List Value} (h : ∀ v ∈ items, v.Settled) :
    (Value.list items).Settled := by
  have hitems : Tree.itemValues (itemTrees items) = .ok items := by
    rw [Tree.itemValues_eq]
    exact Reader.readItems_itemTrees (List.forall₂_same.mpr h)
  exact bind_eq_ok_iff.mpr ⟨items, hitems, rfl⟩

/-- A double is read again if it is a number. -/
theorem settled_double_iff {x : Binary64} :
    (Value.number (.double x)).Settled ↔ x.isFinite = true := by
  have hread : (Value.number (.double x)).toTree.toValue =
      .ok (if x.isFinite then .number (.double x) else .null) := rfl
  rw [Settled, hread]
  split <;> simp_all

theorem memberValues_memberTrees {members : Table Value} (h : ∀ entry ∈ members, entry.2.Settled)
    (done : Table Value) : Tree.memberValues done (memberTrees members) =
      .ok (Table.mergeWith (fun _ value => value) done members) := by
  have hpaired : members.Paired (fun a v => readValue .value v.toTree = .ok a) members :=
    List.forall₂_same.mpr fun entry hentry => ⟨rfl, h entry hentry⟩
  rw [Tree.memberValues_eq, Reader.readMembers_memberTrees hpaired]

theorem settled_object {members : Table Value} (hdistinct : members.Distinct)
    (h : ∀ entry ∈ members, entry.2.Settled) : (Value.object members).Settled := by
  have hmembers := memberValues_memberTrees h []
  rw [Table.mergeWith_nil_left _ hdistinct] at hmembers
  exact bind_eq_ok_iff.mpr ⟨members, hmembers, rfl⟩

end Value

namespace Tree

theorem settled_numberValue (n : Number) : (numberValue n).Settled := by
  cases n with
  | integer n => rfl
  | double x =>
    rw [numberValue]
    split
    · exact Value.settled_double_iff.mpr ‹_›
    · rfl

mutual

/-- What has been read as a value can be read again: no name comes twice in it, and all of its
numbers are some. -/
theorem settled_of_toValue : ∀ (t : Tree) (v : Value), t.toValue = .ok v → v.Settled
  | .null, v, h => by
    cases h
    rfl
  | .bool b, v, h => by
    cases h
    rfl
  | .number n, v, h => by
    obtain ⟨n, -, rfl⟩ := map_eq_ok_iff.mp h
    exact settled_numberValue n
  | .text s, v, h => by
    obtain ⟨s, -, rfl⟩ := map_eq_ok_iff.mp h
    rfl
  | .list items stop, v, h => by
    obtain ⟨values, hvalues, rfl⟩ := toValue_list h
    exact Value.settled_list (settled_of_itemValues items values hvalues)
  | .object members stop, v, h => by
    have hdistinct := (wellFormed_of_toValue _ _ h)
    obtain ⟨values, hvalues, rfl⟩ := toValue_object h
    exact Value.settled_object (hdistinct.distinct rfl)
      (settled_of_memberValues members [] values (by simp) hvalues)
  | .deep _, v, h => by cases h
  | .broken _, v, h => by cases h

theorem settled_of_itemValues : ∀ (items : List Tree) (values : List Value),
    itemValues items = .ok values → ∀ v ∈ values, v.Settled
  | [], values, h => by
    cases h
    simp
  | t :: rest, values, h => by
    obtain ⟨value, hvalue, h⟩ := bind_eq_ok_iff.mp h
    obtain ⟨others, hothers, h⟩ := bind_eq_ok_iff.mp h
    cases h
    exact List.forall_mem_cons.mpr
      ⟨settled_of_toValue t value hvalue, settled_of_itemValues rest others hothers⟩

theorem settled_of_memberValues : ∀ (members : List (Read String × Tree))
    (done values : Table Value), (∀ entry ∈ done, entry.2.Settled) →
    memberValues done members = .ok values → ∀ entry ∈ values, entry.2.Settled
  | [], done, values, hdone, h => by
    cases h
    exact hdone
  | (name, t) :: rest, done, values, hdone, h => by
    obtain ⟨key, value, -, hvalue, h⟩ := memberValues_cons h
    refine settled_of_memberValues rest _ values (fun entry hentry => ?_) h
    rcases Table.mem_upsert hentry with hentry | rfl
    · exact hdone entry hentry
    · exact settled_of_toValue t value hvalue

end

end Tree

/-! ## Files and manifests -/

/-- A text that is fitted to a configuration at once, and in two steps by way of its value, gives
the same configuration if it gives one both times. -/
theorem Configuration.ofValue_readValue {text : String} {c c' : Configuration}
    (hfile : Relaxed.typed read text = .ok c)
    (hmanifest : Relaxed.readValue text >>= ofValue = .ok c') : c = c' := by
  obtain ⟨t, ht, hc⟩ := bind_eq_ok_iff.mp hfile
  obtain ⟨v, hvalue, hc'⟩ := bind_eq_ok_iff.mp hmanifest
  obtain ⟨t', ht', hv⟩ := bind_eq_ok_iff.mp hvalue
  obtain rfl := Except.ok.inj (ht.symm.trans ht')
  have hagain : v.toTree.toValue = .ok v := t.settled_of_toValue v hv
  exact determined_read ⟨.relaxed, t, hv, hc⟩ ⟨.value, v.toTree, hagain, hc'⟩

/-- A text with another name for a field, a name that comes again in another spelling, severities
as objects, a list in place of an override, and numbers of every kind. -/
def irregularText : String :=
  "\x7b'extends': ['a', \"b\",], 'severity': \x7b'naming': 'off', 'other': 'error', " ++
    "'n\\x61ming': \x7b'warn': null\x7d\x7d, 'scopes': \x7b'src/**': [['l'], " ++
    "\x7b'naming': \x7b'off': null\x7d\x7d, null]\x7d, 'linterConfig': \x7b'l': " ++
    "\x7b'n': 0x10, 'q': -2, 'x': NaN, 'y': +.5, 'n': 7\x7d\x7d, 'more': 1\x7d"

theorem Configuration.ofValue_readValue_irregularText :
    ∃ c c', Relaxed.typed read irregularText = .ok c ∧
      Relaxed.readValue irregularText >>= ofValue = .ok c' ∧ c = c' ∧
      c'.inherited = some ["a", "b"] ∧
      c'.severity = some [("naming", .warn), ("other", .error)] := by
  -- The text is taken apart once for both ways.
  have hboth : passes (fun t => passes (fun c => c.inherited == some ["a", "b"] &&
      c.severity == some [("naming", .warn), ("other", .error)]) (read .relaxed t) &&
      passes (fun _ => true) (t.toValue >>= ofValue)) (Relaxed.read irregularText) = true := by
    decide +kernel
  obtain ⟨t, ht, hboth⟩ := exists_of_passes hboth
  obtain ⟨hfile, hmanifest⟩ := Bool.and_eq_true_iff.mp hboth
  obtain ⟨c, hread, hchecks⟩ := exists_of_passes hfile
  obtain ⟨c', hvalue, -⟩ := exists_of_passes hmanifest
  obtain ⟨v, hv, hvalue⟩ := bind_eq_ok_iff.mp hvalue
  have hc : Relaxed.typed read irregularText = .ok c := bind_eq_ok_iff.mpr ⟨t, ht, hread⟩
  have hc' : Relaxed.readValue irregularText >>= ofValue = .ok c' :=
    bind_eq_ok_iff.mpr ⟨v, bind_eq_ok_iff.mpr ⟨t, ht, hv⟩, hvalue⟩
  simp only [Bool.and_eq_true, beq_iff_eq] at hchecks
  obtain ⟨hinherited, hseverity⟩ := hchecks
  obtain rfl := ofValue_readValue hc hc'
  exact ⟨c, c, hc, hc', rfl, hinherited, hseverity⟩

end LintFront
