import LintFront.Config.Merge

/-!
# Lists joined without repeats

The lists of configurations are joined entry by entry. What comes out is the concatenation with
first occurrences only.

* `union_eq_append`: a union keeps its first list and appends what is new in the second.
* `union_assoc`: it does not matter in which order several lists are joined.
* `pair_sublist_union`, `mem_or_pair_sublist`: which of two entries of a union comes first.
* `joinLists`: the meaning of several optional lists, the highest first.
* `foldl_unionOption`: joining them one after the other gives that meaning.
-/

namespace LintFront

open scoped List

/-! ## Unions -/

theorem union_nil (a : List String) : union a [] = a := rfl

theorem union_cons (a b : List String) (entry : String) :
    union a (entry :: b) = union (if entry ∈ a then a else a ++ [entry]) b := by
  simp [union]

theorem union_append (a b c : List String) : union a (b ++ c) = union (union a b) c :=
  List.foldl_append

theorem union_singleton (a : List String) (entry : String) :
    union a [entry] = if entry ∈ a then a else a ++ [entry] := by
  rw [union_cons, union_nil]

@[simp]
theorem mem_union {a b : List String} {entry : String} :
    entry ∈ union a b ↔ entry ∈ a ∨ entry ∈ b := by
  induction b generalizing a with
  | nil => simp [union_nil]
  | cons head rest ih =>
    rw [union_cons, ih]
    split
    · rename_i h
      constructor
      · rintro (h' | h')
        · exact Or.inl h'
        · exact Or.inr (List.mem_cons_of_mem _ h')
      · rintro (h' | h')
        · exact Or.inl h'
        · rcases List.mem_cons.mp h' with rfl | h'
          · exact Or.inl h
          · exact Or.inr h'
    · simp [or_assoc]

theorem nodup_union {a : List String} (ha : a.Nodup) (b : List String) : (union a b).Nodup := by
  induction b generalizing a with
  | nil => exact ha
  | cons head rest ih =>
    rw [union_cons]
    split
    · exact ih ha
    · rename_i h
      refine ih (List.nodup_append.mpr ⟨ha, by simp, ?_⟩)
      intro x hx y hy hxy
      rw [List.mem_singleton] at hy
      exact h (hy ▸ hxy ▸ hx)

/-- A union keeps its first list as it is and appends the first occurrences of what is new. -/
theorem union_eq_append (a b : List String) : union a b = a ++ (b.removeAll a).eraseDups := by
  induction b generalizing a with
  | nil => simp [union_nil, List.removeAll]
  | cons head rest ih =>
    rw [union_cons, ih]
    split
    · rename_i h
      simp [List.removeAll, h]
    · rename_i h
      simp only [List.removeAll, List.elem_eq_mem, List.append_assoc, List.singleton_append, h,
        decide_false, Bool.not_false, List.filter_cons_of_pos, List.eraseDups_cons,
        List.filter_filter]
      congr 3
      apply List.filter_congr
      intro x _
      by_cases hx : x = head <;> simp [hx]

theorem prefix_union (a b : List String) : a <+: union a b := by
  rw [union_eq_append]
  exact List.prefix_append _ _

theorem union_assoc (a b c : List String) : union (union a b) c = union a (union b c) := by
  induction c generalizing b with
  | nil => rfl
  | cons head rest ih =>
    have hstep : union a (if head ∈ b then b else b ++ [head]) =
        if head ∈ union a b then union a b else union a b ++ [head] := by
      by_cases hb : head ∈ b
      · simp [hb]
      · rw [if_neg hb, union_append, union_singleton]
    rw [union_cons, union_cons, ← ih, hstep]

/-! ## First occurrences -/

theorem dedupe_eq_eraseDups (list : List String) : dedupe list = list.eraseDups := by
  rw [dedupe, union_eq_append, List.nil_append, List.removeAll, List.filter_eq_self.mpr (by simp)]

theorem nodup_dedupe (list : List String) : (dedupe list).Nodup := nodup_union List.nodup_nil list

theorem nodup_eraseDups (list : List String) : list.eraseDups.Nodup := by
  rw [← dedupe_eq_eraseDups]
  exact nodup_dedupe list

theorem union_of_disjoint {a b : List String} (hb : b.Nodup) (hab : ∀ x ∈ b, x ∉ a) :
    union a b = a ++ b := by
  induction b generalizing a with
  | nil => simp [union_nil]
  | cons head rest ih =>
    rw [List.nodup_cons] at hb
    have hhead : head ∉ a := hab head List.mem_cons_self
    rw [union_cons, if_neg hhead, ih hb.2, List.append_assoc, List.singleton_append]
    intro x hx
    have hxa : x ∉ a := hab x (List.mem_cons_of_mem _ hx)
    have hxh : x ≠ head := fun e => hb.1 (e ▸ hx)
    simp [hxa, hxh]

theorem dedupe_eq_self {list : List String} (h : list.Nodup) : dedupe list = list := by
  rw [dedupe, union_of_disjoint h (by simp), List.nil_append]

theorem union_eq_eraseDups {a : List String} (ha : a.Nodup) (b : List String) :
    union a b = (a ++ b).eraseDups := by
  rw [← dedupe_eq_eraseDups, dedupe, union_append, ← dedupe, dedupe_eq_self ha]

theorem union_dedupe (a b : List String) : union a (dedupe b) = union a b := by
  rw [dedupe, ← union_assoc, union_nil]

/-! ## The order of a union -/

theorem filter_union (f : String → Bool) (a b : List String) :
    (union a b).filter f = union (a.filter f) (b.filter f) := by
  induction b generalizing a with
  | nil => rfl
  | cons head rest ih =>
    rw [union_cons, ih]
    cases hf : f head with
    | false =>
      rw [List.filter_cons_of_neg (by simp [hf])]
      split
      · rfl
      · rw [List.filter_append, List.filter_cons_of_neg (by simp [hf]), List.filter_nil,
          List.append_nil]
    | true =>
      rw [List.filter_cons_of_pos hf, union_cons]
      by_cases hmem : head ∈ a
      · rw [if_pos hmem, if_pos (List.mem_filter.mpr ⟨hmem, hf⟩)]
      · rw [if_neg hmem, if_neg fun h => hmem (List.mem_filter.mp h).1, List.filter_append,
          List.filter_cons_of_pos hf, List.filter_nil]

theorem map_union {f : String → String} (hf : ∀ x y, f x = f y → x = y) (a b : List String) :
    (union a b).map f = union (a.map f) (b.map f) := by
  induction b generalizing a with
  | nil => rfl
  | cons head rest ih =>
    have hmem : f head ∈ a.map f ↔ head ∈ a := by
      rw [List.mem_map]
      constructor
      · rintro ⟨x, hx, heq⟩
        rwa [← hf x head heq]
      · exact fun h => ⟨head, h, rfl⟩
    rw [union_cons, ih, List.map_cons, union_cons]
    by_cases h : head ∈ a
    · rw [if_pos h, if_pos (hmem.mpr h)]
    · rw [if_neg h, if_neg fun h' => h (hmem.mp h'), List.map_append]
      rfl

/-- What a union appends comes after its first list. -/
theorem pair_sublist_union {a b : List String} {x y : String} (hx : x ∈ a) (hy : y ∈ b)
    (hnew : y ∉ a) : [x, y] <+ union a b := by
  have hmem : y ∈ union a b := mem_union.mpr (Or.inr hy)
  rw [union_eq_append] at hmem ⊢
  refine (List.singleton_sublist.mpr hx).append (List.singleton_sublist.mpr ?_)
  exact (List.mem_append.mp hmem).resolve_left hnew

/-- What comes first of two in a union is in the first list, or comes first in the second one. -/
theorem mem_or_pair_sublist {a b : List String} (hb : b.Nodup) {x y : String}
    (h : [x, y] <+ union a b) : x ∈ a ∨ [x, y] <+ b := by
  rw [union_eq_append] at h
  obtain ⟨before, after, heq, hbefore, hafter⟩ := List.sublist_append_iff.mp h
  have hnodup : (b.removeAll a).Nodup := hb.filter _
  have hsublist : after <+ b := by
    rw [← dedupe_eq_eraseDups, dedupe_eq_self hnodup] at hafter
    exact hafter.trans List.filter_sublist
  cases before with
  | nil =>
    rw [List.nil_append] at heq
    rw [heq]
    exact Or.inr hsublist
  | cons head rest =>
    obtain ⟨rfl, -⟩ := List.cons.inj heq
    exact Or.inl (hbefore.subset List.mem_cons_self)

/-! ## Optional lists -/

/-- Several optional lists, the highest first, as one: nothing if none of them is there, else
their concatenation with first occurrences only. -/
def joinLists (lists : List (Option (List String))) : Option (List String) :=
  match lists.filterMap id with
  | [] => none
  | present => some present.flatten.eraseDups

theorem nodup_joinLists (lists : List (Option (List String))) :
    ((joinLists lists).getD []).Nodup := by
  rw [joinLists]
  cases lists.filterMap id with
  | nil => exact List.nodup_nil
  | cons head rest => exact nodup_eraseDups _

theorem unionOption_assoc (a b c : Option (List String)) :
    unionOption (unionOption a b) c = unionOption a (unionOption b c) := by
  cases b with
  | none =>
    cases c with
    | none => rfl
    | some c => exact congrArg some (union_dedupe _ c).symm
  | some b =>
    cases c with
    | none => rfl
    | some c => exact congrArg some (union_assoc _ b c)

/-- Optional operands joined one after the other, where a missing one changes nothing and a present
one starts from `e` if it is the first. -/
theorem foldl_optional {β : Type} {op : Option β → Option β → Option β} {g : β → β → β} {e : β}
    (hnone : ∀ a, op a none = a) (hsome : ∀ a b, op a (some b) = some (g (a.getD e) b))
    (a : Option β) (list : List (Option β)) :
    list.foldl op a =
      match list.filterMap id with
      | [] => a
      | present => some (present.foldl g (a.getD e)) := by
  induction list generalizing a with
  | nil => rfl
  | cons head rest ih =>
    cases head with
    | none => simpa [hnone] using ih a
    | some b =>
      rw [List.foldl_cons, hsome, ih, List.filterMap_cons_some (rfl : id (some b) = some b)]
      cases rest.filterMap id with
      | nil => rfl
      | cons c present => rfl

theorem foldl_union (a : List String) (lists : List (List String)) :
    lists.foldl union a = union a lists.flatten := by
  induction lists generalizing a with
  | nil => rfl
  | cons head rest ih => rw [List.foldl_cons, ih, List.flatten_cons, union_append]

/-- Optional lists joined one after the other into nothing. -/
theorem foldl_unionOption (lists : List (Option (List String))) :
    lists.foldl unionOption none = joinLists lists := by
  rw [foldl_optional (g := union) (e := []) (fun _ => rfl) (fun _ _ => rfl), joinLists]
  cases lists.filterMap id with
  | nil => rfl
  | cons head rest =>
    exact congrArg some ((foldl_union [] _).trans (dedupe_eq_eraseDups _))

end LintFront
