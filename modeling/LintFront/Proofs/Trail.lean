import LintFront.Proofs.Agreement
import LintFront.Proofs.Precedence

/-!
# How far a path leads

A path of names leads through objects until one of them lacks the next name, until it comes to its
end, or until it meets something that is no object. How far it leads in merged values depends only
on how far it leads in each of them: what it finds in the lower one comes in if it lies no higher
than the place at which the upper one breaks off.

* `Trail`: how far a path leads, and what it finds there.
* `Value.trail_merge`: the trail in merged values is the merge of their trails.
* `Trail.Admits`: something that is found below comes in.
* `Setting`: a key of severities or an option of a linter, as what an override sets.
* `ScopeOverride.trail_merge`: the trails of settings in merged overrides.
-/

namespace LintFront

/-! ## Trails -/

/-- How far a path of names leads. -/
inductive Trail
  /-- After so many objects the next name is missing. -/
  | missing (depth : Nat)
  /-- After so many objects comes the end, or something that is no object. -/
  | found (depth : Nat) (value : Value)

namespace Trail

/-- The trail of a path with one more object in front. -/
def next : Trail → Trail
  | missing depth => missing (depth + 1)
  | found depth value => found (depth + 1) value

/-- The trail in something that may not be there. -/
def inside {α : Type} (f : α → Trail) : Option α → Trail
  | none => missing 0
  | some a => f a

/-- What is found at the end of the trail. -/
def value? : Trail → Option Value
  | missing _ => none
  | found _ value => some value

/-- A trail with a lower one brought in. What the lower one finds where the upper one has an object
stays out. -/
def merge : Trail → Trail → Trail
  | missing d, missing d' => missing (max d d')
  | missing d, found e v => if e < d then missing d else found e v
  | found e v, missing _ => found e v
  | found e v, found e' w => found e (if e = e' then v.merge w else v)

/-- A trail breaks off no deeper than something lies, so that it comes in. -/
def Admits (t : Trail) (depth : Nat) : Prop := ∃ d ≤ depth, t = missing d

instance (t : Trail) (depth : Nat) : Decidable (t.Admits depth) :=
  match t with
  | missing d =>
    decidable_of_iff (d ≤ depth) ⟨fun h => ⟨d, h, rfl⟩, fun ⟨_, h, heq⟩ => missing.inj heq ▸ h⟩
  | found _ _ => isFalse fun ⟨_, _, heq⟩ => nomatch heq

theorem missing_zero_merge (t : Trail) : (missing 0).merge t = t := by
  cases t with
  | missing d => rw [merge, Nat.zero_max]
  | found e v => rw [merge, if_neg (Nat.not_lt_zero e)]

theorem merge_missing_zero (t : Trail) : t.merge (missing 0) = t := by
  cases t with
  | missing d => rw [merge, Nat.max_zero]
  | found e v => rfl

theorem next_merge (t u : Trail) : t.next.merge u.next = (t.merge u).next := by
  cases t <;> cases u <;> simp only [next, merge]
  · rw [Nat.add_max_add_right]
  · rename_i d e v
    by_cases h : e < d
    · rw [if_pos h, if_pos (Nat.succ_lt_succ h)]
    · rw [if_neg h, if_neg fun h' => h (Nat.lt_of_succ_lt_succ h')]
  · simp

theorem inside_merge {α : Type} {f : α → Trail} {g : α → α → α} {o o' : Option α}
    (h : ∀ a b, o = some a → o' = some b → f (g a b) = (f a).merge (f b)) :
    inside f (o.merge g o') = (inside f o).merge (inside f o') := by
  cases o with
  | none => rw [Option.merge_none_left, inside, missing_zero_merge]
  | some a =>
    cases o' with
    | none => rw [Option.merge_none_right, inside, inside, merge_missing_zero]
    | some b => exact h a b rfl rfl

/-! ## What comes in -/

theorem isSome_of_eq_found {t : Trail} {e : Nat} {v : Value} (h : t = found e v) :
    t.value?.isSome := by
  rw [h]
  rfl

theorem Admits.value?_eq_none {t : Trail} {e : Nat} (h : t.Admits e) : t.value? = none := by
  obtain ⟨d, -, rfl⟩ := h
  rfl

theorem not_admits_of_isSome {t : Trail} {e : Nat} (h : t.value?.isSome) : ¬ t.Admits e := by
  intro hadmits
  rw [hadmits.value?_eq_none] at h
  cases h

theorem merge_of_admits {t : Trail} {e : Nat} (h : t.Admits e) (v : Value) :
    t.merge (found e v) = found e v := by
  obtain ⟨d, hd, rfl⟩ := h
  rw [merge, if_neg (Nat.not_lt_of_le hd)]

theorem merge_of_not_admits {t : Trail} {e : Nat} {v : Value} (h : ¬ t.Admits e)
    (hv : v.members? = none) : t.merge (found e v) = t := by
  cases t with
  | missing d =>
    rw [merge, if_pos (Nat.lt_of_not_le fun hd => h ⟨d, hd, rfl⟩)]
  | found e' v' => rw [merge, Value.merge_of_right v' hv, ite_self]

theorem found_merge {e : Nat} {v : Value} (hv : v.members? = none) (t : Trail) :
    (found e v).merge t = found e v := by
  cases t with
  | missing d => rfl
  | found e' w => rw [merge, Value.merge_of_left hv, ite_self]

/-- What is found below something that leads nowhere comes from below. -/
theorem admits_of_merge_eq_found {t u : Trail} {e : Nat} {v : Value} (ht : t.value? = none)
    (h : t.merge u = found e v) : u = found e v ∧ t.Admits e := by
  cases t with
  | found => cases ht
  | missing d =>
    cases u with
    | missing => cases h
    | found e' w =>
      rw [merge] at h
      split at h
      · cases h
      · rename_i hle
        cases h
        exact ⟨rfl, d, Nat.le_of_not_lt hle, rfl⟩

theorem depth_of_found_merge {t u : Trail} {e e' : Nat} {v w : Value} (ht : t = found e v)
    (h : t.merge u = found e' w) : e' = e := by
  subst ht
  cases u <;> cases h <;> rfl

/-- What is no object stays, whatever is brought in below it. -/
theorem foldl_merge_found {e : Nat} {v : Value} (hv : v.members? = none) (ts : List Trail) :
    ts.foldl merge (found e v) = found e v := by
  induction ts with
  | nil => rfl
  | cons t rest ih => rw [List.foldl_cons, found_merge hv, ih]

/-- What is found in several trails is found in one of them, and comes in below those before it. -/
theorem exists_admitted {t : Trail} {ts : List Trail} (ht : t.value? = none)
    (h : (ts.foldl merge t).value?.isSome) :
    ∃ before e v after, ts = before ++ found e v :: after ∧ (before.foldl merge t).Admits e := by
  -- What is merged so far leads nowhere until the trail in question comes in.
  induction ts generalizing t with
  | nil =>
    rw [List.foldl_nil, ht] at h
    cases h
  | cons head rest ih =>
    rw [List.foldl_cons] at h
    cases hhead : (t.merge head).value? with
    | none =>
      obtain ⟨before, e, v, after, rfl, hadmits⟩ := ih hhead h
      exact ⟨head :: before, e, v, after, rfl, hadmits⟩
    | some x =>
      cases t with
      | found => cases ht
      | missing d =>
        cases head with
        | missing => cases hhead
        | found e v =>
          have hd : d ≤ e := by
            refine Nat.le_of_not_lt fun hlt => ?_
            rw [merge, if_pos hlt] at hhead
            cases hhead
          exact ⟨[], e, v, rest, rfl, d, hd, rfl⟩

/-- A trail that does not break off deeper than a given depth. -/
def Within (depth : Nat) (t : Trail) : Prop := ∀ d, t = missing d → d ≤ depth

theorem Within.merge {depth : Nat} {t u : Trail} (ht : t.Within depth) (hu : u.Within depth) :
    (t.merge u).Within depth := by
  intro d hd
  cases t with
  | found => cases u <;> cases hd
  | missing a =>
    have ha := ht a rfl
    cases u with
    | missing b =>
      cases hd
      exact Nat.max_le.mpr ⟨ha, hu b rfl⟩
    | found e v =>
      rw [Trail.merge] at hd
      split at hd
      · cases hd
        exact ha
      · cases hd

/-- What one of several trails finds as deep as any of them leads is found in all of them, if
nothing else is. -/
theorem value?_foldl_isSome {depth : Nat} {t : Trail} {ts : List Trail} {v : Value}
    (ht : t.Within depth) (hts : ∀ u ∈ ts, u.Within depth)
    (h : t = found depth v ∨ found depth v ∈ ts) : (ts.foldl merge t).value?.isSome := by
  -- Once something is found, something is found in the end.
  have hkeep : ∀ (us : List Trail) (e : Nat) (w : Value),
      (us.foldl merge (found e w)).value?.isSome := by
    intro us
    induction us with
    | nil => exact fun _ _ => rfl
    | cons u us ih =>
      intro e w
      rw [List.foldl_cons]
      cases u with
      | missing => exact ih e w
      | found => exact ih e _
  induction ts generalizing t with
  | nil =>
    rcases h with rfl | h
    · rfl
    · cases h
  | cons head rest ih =>
    cases t with
    | found e w => exact hkeep _ e w
    | missing d =>
      obtain ⟨hhead, hrest⟩ := List.forall_mem_cons.mp hts
      rw [List.foldl_cons]
      refine ih (ht.merge hhead) hrest ?_
      rcases h with h | h
      · cases h
      · rcases List.mem_cons.mp h with rfl | h
        · exact Or.inl (merge_of_admits ⟨d, ht d rfl, rfl⟩ v)
        · exact Or.inr h

theorem value?_foldl_eq_none {t : Trail} {ts : List Trail} (ht : t.value? = none)
    (hts : ∀ u ∈ ts, u.value? = none) : (ts.foldl merge t).value? = none := by
  induction ts generalizing t with
  | nil => exact ht
  | cons head rest ih =>
    obtain ⟨hhead, hrest⟩ := List.forall_mem_cons.mp hts
    rw [List.foldl_cons]
    refine ih ?_ hrest
    cases t with
    | found => cases ht
    | missing d =>
      cases head with
      | found => cases hhead
      | missing d' => rfl

/-- What is found at a place follows a value there if what goes before admits it. -/
theorem value?_of_admits {above beside rest : Trail} {below : List Trail} {e : Nat} {v : Value}
    (hv : v.members? = none) (habove : above.Admits e) (hbeside : beside.Admits e) :
    (below.foldl merge (above.merge ((beside.merge (found e v)).merge rest))).value? = some v := by
  rw [merge_of_admits hbeside, found_merge hv, merge_of_admits habove, foldl_merge_found hv]
  rfl

/-- What is found follows two different values at a place only if what goes before admits them. -/
theorem admits_of_value? {above beside rest : Trail} {below : List Trail} {e : Nat} {v w : Value}
    (hv : v.members? = none) (hw : w.members? = none) (hne : v ≠ w)
    (hfirst : (below.foldl merge
      (above.merge ((beside.merge (found e v)).merge rest))).value? = some v)
    (hsecond : (below.foldl merge
      (above.merge ((beside.merge (found e w)).merge rest))).value? = some w) :
    above.Admits e ∧ beside.Admits e := by
  have hbeside : beside.Admits e := by
    refine Decidable.byContradiction fun hout => ?_
    rw [merge_of_not_admits hout hv] at hfirst
    rw [merge_of_not_admits hout hw, hfirst] at hsecond
    exact hne (Option.some.inj hsecond)
  refine ⟨Decidable.byContradiction fun hout => ?_, hbeside⟩
  rw [merge_of_admits hbeside, found_merge hv, merge_of_not_admits hout hv] at hfirst
  rw [merge_of_admits hbeside, found_merge hw, merge_of_not_admits hout hw, hfirst] at hsecond
  exact hne (Option.some.inj hsecond)

end Trail

/-! ## Trails in values -/

namespace Value

/-- How far a path leads in a value. -/
def trail : List String → Value → Trail
  | [], v => .found 0 v
  | name :: path, v =>
    match v.members? with
    | none => .found 0 v
    | some members => (Trail.inside (trail path) (Table.find? members name)).next

/-- What a path leads to, if it is no object. -/
def leaf? (path : List String) (v : Value) : Option Value :=
  (at? path v).filter fun w => w.members?.isNone

/-- A value with something else at the end of a trail. -/
def replace (w : Value) : List String → Value → Value
  | [], _ => w
  | name :: path, v =>
    match v.members? with
    | none => w
    | some members => .object (Table.upsert name
        (fun present => (present.map (replace w path)).getD w) members)

theorem trail_cons_of_members {v : Value} {members : Table Value}
    (h : v.members? = some members) (name : String) (path : List String) :
    trail (name :: path) v = (Trail.inside (trail path) (Table.find? members name)).next := by
  rw [trail, h]

theorem trail_of_not_object {v : Value} (h : v.members? = none) (path : List String) :
    trail path v = .found 0 v := by
  cases path with
  | nil => rfl
  | cons name path => rw [trail, h]

/-- The trail in merged values is the merge of their trails. -/
theorem trail_merge (path : List String) (v : Value) {w : Value} (hw : w.WellFormed) :
    trail path (v.merge w) = (trail path v).merge (trail path w) := by
  induction path generalizing v w with
  | nil => rfl
  | cons name path ih =>
    cases hvm : v.members? with
    | none => rw [merge_of_left hvm, trail_of_not_object hvm, Trail.found_merge hvm]
    | some members =>
      cases hwm : w.members? with
      | none =>
        -- There is an object above, so that what is none stays out.
        have hout : ¬ (trail (name :: path) v).Admits 0 := by
          rintro ⟨d, hd, heq⟩
          rw [trail_cons_of_members hvm] at heq
          cases hinside : Trail.inside (trail path) (Table.find? members name) <;>
            rw [hinside] at heq <;> cases heq
          cases hd
        rw [merge_of_right v hwm, trail_of_not_object hwm, Trail.merge_of_not_admits hout hwm]
      | some source =>
        have hmerged : (v.merge w).members? = some (Table.mergeWith merge members source) := by
          rw [eq_object_of_members? hvm, eq_object_of_members? hwm, merge_object]
          rfl
        rw [trail_cons_of_members hmerged, trail_cons_of_members hvm, trail_cons_of_members hwm,
          Trail.next_merge, Table.find?_mergeWith _ _ (hw.distinct hwm)]
        refine congrArg Trail.next (Trail.inside_merge fun a b _ hb => ?_)
        exact ih a (hw.of_find? hwm hb)

theorem trail_within (path : List String) (v : Value) : (trail path v).Within path.length := by
  induction path generalizing v with
  | nil =>
    rintro d ⟨⟩
  | cons name path ih =>
    intro d hd
    cases hvm : v.members? with
    | none =>
      rw [trail_of_not_object hvm] at hd
      cases hd
    | some members =>
      rw [trail_cons_of_members hvm] at hd
      cases hfind : Table.find? members name with
      | none =>
        rw [hfind] at hd
        cases hd
        exact Nat.succ_le_succ (Nat.zero_le _)
      | some w =>
        rw [hfind, Trail.inside] at hd
        cases hw : trail path w with
        | missing d' =>
          rw [hw] at hd
          cases hd
          exact Nat.succ_le_succ (ih w d' hw)
        | found e x =>
          rw [hw] at hd
          cases hd

theorem trail_of_at? {path : List String} {v x : Value} (h : at? path v = some x) :
    trail path v = .found path.length x := by
  induction path generalizing v with
  | nil =>
    cases h
    rfl
  | cons name path ih =>
    obtain ⟨w, hw, h⟩ := Option.bind_eq_some_iff.mp h
    cases hvm : v.members? with
    | none => cases v <;> simp_all [members?, member?]
    | some members =>
      rw [member?_eq hvm] at hw
      rw [trail_cons_of_members hvm, hw, Trail.inside, ih h]
      rfl

theorem trail_of_leaf? {path : List String} {v x : Value} (h : leaf? path v = some x) :
    trail path v = .found path.length x ∧ x.members? = none := by
  obtain ⟨hx, hleaf⟩ := Option.filter_eq_some_iff.mp h
  exact ⟨trail_of_at? hx, Option.isNone_iff_eq_none.mp hleaf⟩

theorem trail_replace {path : List String} {v w x : Value} {e : Nat} (hw : w.members? = none)
    (h : trail path v = .found e x) : trail path (replace w path v) = .found e w := by
  induction path generalizing v e with
  | nil =>
    cases h
    rfl
  | cons name path ih =>
    cases hvm : v.members? with
    | none =>
      rw [trail_of_not_object hvm] at h
      cases h
      rw [replace, hvm]
      exact trail_of_not_object hw _
    | some members =>
      rw [trail_cons_of_members hvm] at h
      cases hfind : Table.find? members name with
      | none =>
        rw [hfind] at h
        cases h
      | some present =>
        rw [hfind, Trail.inside] at h
        cases hp : trail path present with
        | missing d =>
          rw [hp] at h
          cases h
        | found e' y =>
          rw [hp] at h
          cases h
          rw [replace, hvm, trail_cons_of_members rfl, Table.find?_upsert,
            if_pos (beq_self_eq_true name), hfind]
          show (trail path (replace w path present)).next = _
          rw [ih hp]
          rfl

theorem WellFormed.replace {w : Value} (hw : w.WellFormed) {v : Value} (hv : v.WellFormed)
    (path : List String) : (replace w path v).WellFormed := by
  induction path generalizing v with
  | nil => exact hw
  | cons name path ih =>
    rw [Value.replace]
    cases hvm : v.members? with
    | none => exact hw
    | some members =>
      refine .object ((hv.distinct hvm).upsert _ _) fun entry hentry => ?_
      rcases Table.mem_upsert hentry with hmem | rfl
      · exact hv.of_find? hvm ((hv.distinct hvm).find?_of_mem hmem)
      · cases hfind : Table.find? members name with
        | none => exact hw
        | some present => exact ih (hv.of_find? hvm hfind)

end Value

/-! ## Trails of settings -/

/-- Something that an override sets: the severity of a key, or the option of a linter to which some
names lead. -/
inductive Setting
  | severity (key : String)
  | option (linter : String) (names : List String)

namespace Setting

/-- How many objects there are around a setting. -/
def depth : Setting → Nat
  | severity _ => 1
  | option _ names => names.length + 1

/-- What a setting can be set to. -/
def Choice : Setting → Type
  | severity _ => Severity
  | option _ _ => { v : Value // v.WellFormed ∧ v.members? = none }

def Choice.value : {setting : Setting} → setting.Choice → Value
  | severity _, s => Severity.toValue s
  | option _ _, v => v.1

theorem Choice.members_value {setting : Setting} (choice : setting.Choice) :
    choice.value.members? = none := by
  cases setting with
  | severity key => rfl
  | option linter names => exact choice.2.2

theorem exists_choices_ne (setting : Setting) :
    ∃ choice other : setting.Choice, choice.value ≠ other.value := by
  cases setting with
  | severity key =>
    exact ⟨Severity.off, Severity.error, by simp [Choice.value, Severity.toValue, Severity.label]⟩
  | option linter names =>
    exact ⟨⟨.null, .null, rfl⟩, ⟨.bool true, .bool true, rfl⟩, by simp [Choice.value]⟩

end Setting

namespace ScopeOverride

/-- How far an override leads to a setting. -/
def trail (s : ScopeOverride) : Setting → Trail
  | .severity key =>
    (Trail.inside (fun x : Severity => .found 0 x.toValue) (s.severityOf key)).next
  | .option linter names => Value.trail (linter :: names) (optionsObject s.linterConfig)

/-- What an override sets something to. -/
def leaf? (s : ScopeOverride) : Setting → Option Value
  | .severity key => (s.severityOf key).map Severity.toValue
  | .option linter names => Value.leaf? (linter :: names) (optionsObject s.linterConfig)

/-- An override with something else for a setting that it leads to. -/
def put (s : ScopeOverride) : (setting : Setting) → setting.Choice → ScopeOverride
  | .severity key, severity => s.withSeverity key severity
  | .option linter names, v =>
    { s with
      linterConfig := (v.1.replace (linter :: names) (optionsObject s.linterConfig)).members? }

variable {s : ScopeOverride} {setting : Setting}

theorem trail_merge (s : ScopeOverride) {lower : ScopeOverride} (h : lower.WellFormed)
    (setting : Setting) :
    (s.merge lower).trail setting = (s.trail setting).merge (lower.trail setting) := by
  cases setting with
  | severity key =>
    have hor : (s.merge lower).severityOf key =
        (s.severityOf key).merge keepFirst (lower.severityOf key) := by
      rw [severityOf_merge s h]
      cases s.severityOf key <;> cases lower.severityOf key <;> rfl
    rw [trail, trail, trail, hor, Trail.next_merge]
    exact congrArg Trail.next (Trail.inside_merge fun a b _ _ => rfl)
  | option linter names =>
    rw [trail, trail, trail, merge, optionsObject_mergeTables]
    exact Value.trail_merge _ _ (wellFormed_optionsObject h.linterConfig)

theorem trail_foldl_merge (s : ScopeOverride) {lower : List ScopeOverride}
    (h : ∀ o ∈ lower, o.WellFormed) (setting : Setting) :
    (lower.foldl merge s).trail setting =
      (lower.map (·.trail setting)).foldl Trail.merge (s.trail setting) := by
  induction lower generalizing s with
  | nil => rfl
  | cons head rest ih =>
    obtain ⟨hhead, hrest⟩ := List.forall_mem_cons.mp h
    rw [List.foldl_cons, ih _ hrest, trail_merge s hhead, List.map_cons, List.foldl_cons]

theorem trail_within (s : ScopeOverride) (setting : Setting) :
    (s.trail setting).Within setting.depth := by
  cases setting with
  | severity key =>
    intro d hd
    rw [trail] at hd
    cases hkey : s.severityOf key with
    | none =>
      rw [hkey] at hd
      cases hd
      exact Nat.le_refl _
    | some x =>
      rw [hkey] at hd
      cases hd
  | option linter names => exact Value.trail_within _ _

/-- What sets a setting comes in below an override that does not lead to it. -/
theorem trail_admits (h : (s.trail setting).value? = none) :
    (s.trail setting).Admits setting.depth := by
  cases htrail : s.trail setting with
  | missing d => exact ⟨d, s.trail_within setting d htrail, rfl⟩
  | found e x =>
    rw [htrail] at h
    cases h

theorem trail_of_leaf? {x : Value} (h : s.leaf? setting = some x) :
    s.trail setting = .found setting.depth x ∧ x.members? = none := by
  cases setting with
  | severity key =>
    obtain ⟨severity, hkey, rfl⟩ := Option.map_eq_some_iff.mp h
    rw [trail, hkey]
    exact ⟨rfl, rfl⟩
  | option linter names => exact Value.trail_of_leaf? h

theorem trail_empty (setting : Setting) : (({} : ScopeOverride).trail setting).value? = none := by
  cases setting <;> rfl

theorem trail_put {x : Value} {e : Nat} (h : s.trail setting = .found e x)
    (choice : setting.Choice) : (s.put setting choice).trail setting = .found e choice.value := by
  cases setting with
  | severity key =>
    have hset : (s.put (.severity key) choice).severityOf key = some choice :=
      s.severityOf_withSeverity key choice
    rw [trail] at h
    rw [trail, hset]
    cases hkey : s.severityOf key with
    | none =>
      rw [hkey] at h
      cases h
    | some severity =>
      rw [hkey] at h
      cases h
      rfl
  | option linter names =>
    have hkept : optionsObject (s.put (.option linter names) choice).linterConfig =
        choice.1.replace (linter :: names) (optionsObject s.linterConfig) := rfl
    rw [trail, hkept]
    exact Value.trail_replace choice.2.2 h

theorem WellFormed.put (h : s.WellFormed) (setting : Setting) (choice : setting.Choice) :
    (s.put setting choice).WellFormed := by
  cases setting with
  | severity key => exact h.withSeverity key choice
  | option linter names =>
    refine ⟨h.severity, fun t ht => ?_⟩
    have hreplaced := choice.2.1.replace (wellFormed_optionsObject h.linterConfig) (linter :: names)
    have hmembers : (choice.1.replace (linter :: names)
        (optionsObject s.linterConfig)).members? = some t := ht
    rwa [Value.eq_object_of_members? hmembers] at hreplaced

end ScopeOverride

end LintFront
