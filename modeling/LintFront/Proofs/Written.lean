import LintFront.Proofs.Rereading

/-!
# Values that are written and read

What is written as a value is read back from it, part by part: a list from the values of its items,
a table from those of its entries, and a record from its members. A member that is left out leaves
its field as it was.

* `Reader.Restores`: a reader takes a value for what was written.
* `Reader.restores_readList`, `Reader.restores_readTable`: lists and tables of such values.
* `Written`: the members that the fields of a record are written as, in order.
* `Reader.restores_readRecord`: records with such members.
-/

namespace LintFront

namespace Value

theorem settled_list_iff {items : List Value} :
    (Value.list items).Settled ↔ ∀ v ∈ items, v.Settled := by
  refine ⟨fun h => ?_, settled_list⟩
  obtain ⟨values, hvalues, heq⟩ := Tree.toValue_list h
  cases heq
  exact Tree.settled_of_itemValues _ items hvalues

theorem settled_object_iff {members : Table Value} :
    (Value.object members).Settled ↔
      members.Distinct ∧ ∀ entry ∈ members, entry.2.Settled := by
  refine ⟨fun h => ?_, fun ⟨hdistinct, h⟩ => settled_object hdistinct h⟩
  have hdistinct := (Tree.wellFormed_of_toValue _ _ h).distinct rfl
  obtain ⟨values, hvalues, heq⟩ := Tree.toValue_object h
  cases heq
  exact ⟨hdistinct, Tree.settled_of_memberValues _ [] members (by simp) hvalues⟩

end Value

/-! ## Lists and tables -/

namespace Reader

variable {α : Type} {read : Reader α}

/-- The reader takes a value for what was written. -/
structure Restores (read : Reader α) (a : α) (v : Value) : Prop where
  /-- The value itself is written without loss. -/
  settled : v.Settled
  reads : read .value v.toTree = .ok a

theorem restores_readText (expected s : String) : Restores (readText expected) s (.text s) :=
  ⟨rfl, rfl⟩

theorem restores_readValue {v : Value} (h : v.Settled) : Restores readValue v v := ⟨h, h⟩

theorem readOptional_toTree (dialect : Dialect) {v : Value} (hnull : v ≠ .null) :
    readOptional read dialect v.toTree = (read dialect v.toTree).map some := by
  cases v with
  | null => exact absurd rfl hnull
  | _ => rfl

/-- What is null would be read as nothing. -/
theorem restores_readOptional {a : α} {v : Value} (h : Restores read a v) (hnull : v ≠ .null) :
    Restores (readOptional read) (some a) v := by
  refine ⟨h.settled, ?_⟩
  rw [readOptional_toTree .value hnull, h.reads]
  rfl

theorem restores_readList {found : List α} {items : List Value}
    (h : List.Forall₂ (Restores read) found items) :
    Restores (readList read) found (.list items) := by
  have hsettled : ∀ v ∈ items, v.Settled := by
    intro v hv
    obtain ⟨i, hi, rfl⟩ := List.mem_iff_getElem.mp hv
    exact (h.get (by rw [h.length_eq]; exact hi) hi).settled
  have hitems : readItems read .value (Value.itemTrees items) = .ok found :=
    readItems_itemTrees (h.imp fun _ _ hread => hread.reads)
  exact ⟨Value.settled_list hsettled, bind_eq_ok_iff.mpr ⟨found, hitems, rfl⟩⟩

/-- A list of things that are each written in the same way. -/
theorem restores_readList_map {toValue : α → Value} {found : List α}
    (h : ∀ a ∈ found, Restores read a (toValue a)) :
    Restores (readList read) found (.list (found.map toValue)) :=
  restores_readList (List.forall₂_map_right_iff.mpr (List.forall₂_same.mpr h))

theorem restores_readTable {toValue : α → Value} {t : Table α} (ht : t.Distinct)
    (h : ∀ entry ∈ t, Restores read entry.2 (toValue entry.2)) :
    Restores (readTable read) t (tableValue toValue t) := by
  have hdistinct : Table.Distinct (t.map fun entry => (entry.1, toValue entry.2)) := by
    rw [Table.Distinct, Table.names, List.map_map]
    exact ht
  have hpaired : t.Paired (fun a v => read .value v.toTree = .ok a)
      (t.map fun entry => (entry.1, toValue entry.2)) :=
    List.forall₂_map_right_iff.mpr
      (List.forall₂_same.mpr fun entry hentry => ⟨rfl, (h entry hentry).reads⟩)
  constructor
  · refine Value.settled_object hdistinct fun member hmember => ?_
    obtain ⟨entry, hentry, rfl⟩ := List.mem_map.mp hmember
    exact (h entry hentry).settled
  · have hmembers := readMembers_memberTrees hpaired []
    rw [Table.mergeWith_nil_left _ ht] at hmembers
    exact bind_eq_ok_iff.mpr ⟨t, hmembers, rfl⟩

end Reader

/-! ## Records -/

/-- Fields with one name each are found by it, if no name comes twice. -/
theorem Field.find?_isNamed {α : Type} {fields : List (Field α)}
    (hnames : (fields.map Field.name).Nodup) (haliases : ∀ field ∈ fields, field.aliases = []) :
    ∀ field ∈ fields, fields.find? (·.isNamed field.name) = some field := by
  induction fields with
  | nil => exact fun _ hfield => absurd hfield List.not_mem_nil
  | cons first rest ih =>
    obtain ⟨hnew, hnames⟩ := List.nodup_cons.mp hnames
    obtain ⟨hfirst, haliases⟩ := List.forall_mem_cons.mp haliases
    intro field hfield
    rw [List.find?_cons]
    rcases List.mem_cons.mp hfield with rfl | hfield
    · have hnamed : field.isNamed field.name = true := by simp [isNamed]
      rw [hnamed]
    · have hne : first.name ≠ field.name := fun heq => hnew (heq ▸ List.mem_map_of_mem hfield)
      have hother : first.isNamed field.name = false := by simp [isNamed, hfirst, hne]
      rw [hother]
      exact ih hnames haliases field hfield

/-- The members that fields are written as, in order. Reading them takes one record to another. -/
inductive Written {α : Type} : List (Field α) → α → α → Table Value → Prop
  | done (record : α) : Written [] record record []
  /-- A field that need not be given is left as it is. -/
  | left {field : Field α} {fields : List (Field α)} {record last : α} {members : Table Value}
      (hrequired : field.required = false) (hrest : Written fields record last members) :
      Written (field :: fields) record last members
  | given {field : Field α} {fields : List (Field α)} {record next last : α} {v : Value}
      {members : Table Value} (hv : v.Settled)
      (hnext : field.read .value v.toTree record = .ok next)
      (hrest : Written fields next last members) :
      Written (field :: fields) record last ((field.name, v) :: members)

namespace Written

variable {α β : Type} {fields : List (Field α)} {record last : α} {members : Table Value}
  {read : Reader β} {set : α → β → α}

theorem demanded {b : β} {v : Value} (h : read.Restores b v) (name : String)
    (hrest : Written fields (set record b) last members) :
    Written (.demanded name read set :: fields) record last ((name, v) :: members) :=
  .given h.settled (bind_eq_ok_iff.mpr ⟨b, h.reads, rfl⟩) hrest

theorem defaulted {b : β} {v : Value} (h : read.Restores b v) (name : String)
    (hrest : Written fields (set record b) last members) :
    Written (.defaulted name read set :: fields) record last ((name, v) :: members) :=
  .given h.settled (bind_eq_ok_iff.mpr ⟨b, h.reads, rfl⟩) hrest

/-- A field that is left out where it says no more than its default. -/
theorem defaulted_unless {b : β} {v : Value} (h : read.Restores b v) (name : String) {idle : Bool}
    (hidle : idle = true → set record b = record)
    (hrest : Written fields (set record b) last members) :
    Written (.defaulted name read set :: fields) record last
      ((if idle then [] else [(name, v)]) ++ members) := by
  cases idle with
  | true =>
    rw [hidle rfl] at hrest
    exact .left rfl hrest
  | false => exact .defaulted h name hrest

/-- A field that is written if it is set. -/
theorem omittable {set : α → Option β → α} {toValue : β → Value} {o : Option β}
    (h : ∀ b, o = some b → read.Restores b (toValue b) ∧ toValue b ≠ .null) (name : String)
    (hnone : set record none = record) (hrest : Written fields (set record o) last members) :
    Written (.omittable name read set :: fields) record last
      (memberIf name toValue o ++ members) := by
  cases o with
  | none =>
    rw [hnone] at hrest
    exact .left rfl hrest
  | some b =>
    obtain ⟨hread, hnull⟩ := h b rfl
    have hoptional := Reader.restores_readOptional hread hnull
    exact .given hread.settled (bind_eq_ok_iff.mpr ⟨some b, hoptional.reads, rfl⟩) hrest

theorem names_sublist (h : Written fields record last members) :
    members.names.Sublist (fields.map Field.name) := by
  induction h with
  | done => exact List.Sublist.refl _
  | left _ _ ih => exact ih.cons _
  | given _ _ _ ih => exact ih.cons_cons _

theorem settled (h : Written fields record last members) : ∀ entry ∈ members, entry.2.Settled := by
  induction h with
  | done => exact fun _ hentry => absurd hentry List.not_mem_nil
  | left _ _ ih => exact ih
  | given hv _ _ ih => exact List.forall_mem_cons.mpr ⟨hv, ih⟩

/-- Reading the members, each field is met once, and all that are required are. -/
theorem readFields_eq (h : Written fields record last members) {all : List (Field α)}
    (hfind : ∀ field ∈ fields, all.find? (·.isNamed field.name) = some field)
    (hnames : (fields.map Field.name).Nodup) {seen : List String}
    (hseen : ∀ field ∈ fields, field.name ∉ seen) :
    ∃ met, readFields all .value seen record (Value.memberTrees members) =
        .ok (met ++ seen, last) ∧
      ∀ field ∈ fields, field.required = true → field.name ∈ met := by
  induction h generalizing seen with
  | done => exact ⟨[], rfl, fun _ hfield => absurd hfield List.not_mem_nil⟩
  | left hrequired _ ih =>
    obtain ⟨-, hfind⟩ := List.forall_mem_cons.mp hfind
    obtain ⟨-, hseen⟩ := List.forall_mem_cons.mp hseen
    obtain ⟨met, hread, hmet⟩ := ih hfind (List.nodup_cons.mp hnames).2 hseen
    refine ⟨met, hread, List.forall_mem_cons.mpr ⟨fun h => ?_, hmet⟩⟩
    rw [hrequired] at h
    cases h
  | @given field fields record next last v members hv hnext _ ih =>
    obtain ⟨hfield, hfind⟩ := List.forall_mem_cons.mp hfind
    obtain ⟨hnew, hseen⟩ := List.forall_mem_cons.mp hseen
    obtain ⟨hother, hnames⟩ := List.nodup_cons.mp hnames
    have hseen : ∀ f ∈ fields, f.name ∉ field.name :: seen := by
      intro f hf hmem
      rcases List.mem_cons.mp hmem with heq | hmem
      · exact hother (heq ▸ List.mem_map_of_mem hf)
      · exact hseen f hf hmem
    obtain ⟨met, hread, hmet⟩ := ih hfind hnames hseen
    refine ⟨met ++ [field.name], ?_, List.forall_mem_cons.mpr ⟨fun _ => by simp, fun f hf h =>
      List.mem_append_left _ (hmet f hf h)⟩⟩
    refine bind_eq_ok_iff.mpr ⟨field.name, rfl, ?_⟩
    rw [hfield]
    dsimp only
    rw [if_neg (by simpa using hnew), List.append_assoc, List.singleton_append]
    exact bind_eq_ok_iff.mpr ⟨next, hnext, hread⟩

end Written

/-- A record is read back from the members that it is written as. -/
theorem Reader.restores_readRecord {α : Type} {fields : List (Field α)} {start last : α}
    {members : Table Value} (h : Written fields start last members)
    (hnames : (fields.map Field.name).Nodup) (haliases : ∀ field ∈ fields, field.aliases = [])
    (typeName : String) : Restores (readRecord typeName fields start) last (.object members) := by
  refine ⟨Value.settled_object (hnames.sublist h.names_sublist) h.settled, ?_⟩
  have hfind := Field.find?_isNamed hnames haliases
  obtain ⟨met, hread, hmet⟩ := h.readFields_eq hfind hnames (fun _ _ => List.not_mem_nil)
  rw [List.append_nil] at hread
  have hall : fields.find? (fun field => field.required && !met.contains field.name) = none := by
    refine List.find?_eq_none.mpr fun field hfield => ?_
    cases hrequired : field.required with
    | false => simp
    | true => simpa using hmet field hfield hrequired
  refine bind_eq_ok_iff.mpr ⟨(met, last), hread, bind_eq_ok_iff.mpr ⟨(), rfl, ?_⟩⟩
  rw [hall]
  rfl

end LintFront
