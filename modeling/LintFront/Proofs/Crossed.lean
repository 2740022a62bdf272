import LintFront.Module.Bridge
import LintFront.Proofs.Table

/-!
# What a crossing leaves behind

A bridge script is made before the host runtime starts and taken away when it has ended. There are
many ways to fail in between. On each of them the directory of scripts is as it was before, and
whenever the host runtime runs, the whole script is there.

* `ScriptHost.not_mem_of_freshName`: the name of a script is new in the directory.
* `Bridge.Scripted`: a script is written, under a new name.
* `Bridge.Crosses`: the ways of a crossing.
* `Bridge.cross_leaves_nothing`: each crossing goes one of these ways, and leaves nothing behind.
-/

namespace LintFront

/-! ## Exit codes -/

theorem ExitStatus.delegatedCode_toNat (code : UInt8) :
    (ExitStatus.code code.toNat).delegatedCode = code := by
  have hcode := code.toNat_lt
  rw [delegatedCode, if_pos (by omega), Int.toNat_natCast]
  exact UInt8.ofNat_toNat

theorem ExitStatus.delegatedCode_of_ne {status : ExitStatus}
    (h : ∀ code : UInt8, status ≠ .code code.toNat) : status.delegatedCode = 1 := by
  cases status with
  | killed => rfl
  | code n =>
    have hrange : ¬ (0 ≤ n ∧ n < 256) := by
      rintro ⟨hlow, hhigh⟩
      obtain ⟨m, rfl⟩ := Int.eq_ofNat_of_zero_le hlow
      refine h (UInt8.ofNat m) ?_
      rw [UInt8.toNat_ofNat', Nat.mod_eq_of_lt (by omega)]
    rw [delegatedCode, if_neg hrange]

/-! ## Names of scripts -/

namespace ScriptHost

variable {host : ScriptHost} {entries : Table String}

/-- The name of a script is new in the directory. -/
theorem not_mem_of_freshName {tokens : List String} {name : String}
    (h : host.freshName entries tokens = .ok name) : name ∉ entries.names := by
  induction tokens with
  | nil => cases h
  | cons token rest ih =>
    rw [freshName] at h
    split at h
    · cases h
    · split at h
      · exact ih h
      · rename_i hfree
        cases h
        exact fun hmem => hfree (Table.find?_isSome_iff.mpr hmem)

/-- Where no name can be had, the bridge is to blame. -/
theorem exists_problem_of_freshName {tokens : List String} {e : RunError}
    (h : host.freshName entries tokens = .error e) : ∃ problem, e = .bridge problem := by
  induction tokens with
  | nil =>
    cases h
    exact ⟨_, rfl⟩
  | cons token rest ih =>
    rw [freshName] at h
    split at h
    · cases h
      exact ⟨_, rfl⟩
    · split at h
      · exact ih h
      · cases h

end ScriptHost

/-! ## Crossings -/

namespace Bridge

variable {b : Bridge} {host : ScriptHost} {entries : Table String} {path name text : String}

theorem exists_problem_of_script {e : RunError} (h : b.script path = .error e) :
    ∃ problem, e = .bridge problem := by
  unfold script at h
  split at h
  · cases h
  · cases h
    exact ⟨_, rfl⟩

/-- The whole script for a module can be written into the directory, under a new name. -/
structure Scripted (b : Bridge) (host : ScriptHost) (entries : Table String)
    (path name text : String) : Prop where
  script_eq : b.script path = .ok text
  name_eq : host.freshName entries host.tokens = .ok name
  not_mem : name ∉ entries.names
  writing_eq : host.writing = none

/-- The ways of a crossing that starts from the entries of the directory of scripts: what is there
while the host runtime runs and in the end, and what becomes of the module. -/
inductive Crosses (b : Bridge) (host : ScriptHost) (entries : Table String) (path : String) :
    Crossing → Prop
  | unrendered {problem : BridgeProblem} (h : b.script path = .error (.bridge problem)) :
    Crosses b host entries path ⟨none, entries, .error (.bridge problem)⟩
  | uncreated {text : String} {problem : BridgeProblem} (hscript : b.script path = .ok text)
    (h : host.freshName entries host.tokens = .error (.bridge problem)) :
    Crosses b host entries path ⟨none, entries, .error (.bridge problem)⟩
  | unwritten {text name : String} {cause : IoFault} (hscript : b.script path = .ok text)
    (hname : host.freshName entries host.tokens = .ok name) (h : host.writing = some cause) :
    Crosses b host entries path ⟨none, entries, .error (.bridge (.notWritten cause))⟩
  | unstarted {name text : String} {cause : IoFault}
    (hscripted : b.Scripted host entries path name text)
    (h : host.execute b name (entries ++ [(name, text)]) = .error cause) :
    Crosses b host entries path ⟨none, entries, .error (.bridge (.notRun b.runtime cause))⟩
  /-- An exit code that is a byte is handed on. -/
  | exited {name text : String} {code : UInt8} {left : Table String}
    (hscripted : b.Scripted host entries path name text)
    (h : host.execute b name (entries ++ [(name, text)]) = .ok (.code code.toNat, left)) :
    Crosses b host entries path ⟨some (entries ++ [(name, text)]), entries, .ok (.delegated code)⟩
  /-- All other ways to end count as a failure. -/
  | ended {name text : String} {status : ExitStatus} {left : Table String}
    (hscripted : b.Scripted host entries path name text)
    (h : host.execute b name (entries ++ [(name, text)]) = .ok (status, left))
    (hstatus : ∀ code : UInt8, status ≠ .code code.toNat) :
    Crosses b host entries path ⟨some (entries ++ [(name, text)]), entries, .ok (.delegated 1)⟩

section

variable (hleaves : ∀ name seen status left,
  host.execute b name seen = .ok (status, left) → left = seen)

include hleaves

/-- A script that can be written is there while the host runtime runs, and then it is taken away. -/
theorem crosses_of_scripted (h : b.Scripted host entries path name text) :
    b.Crosses host entries path (b.cross host entries path) := by
  have hput := Table.put_of_not_mem h.not_mem text
  have herase := Table.erase_append_of_not_mem h.not_mem text
  simp only [cross, h.script_eq, h.name_eq, h.writing_eq, hput]
  cases hrun : host.execute b name (entries ++ [(name, text)]) with
  | error cause =>
    dsimp only
    rw [herase]
    exact .unstarted h hrun
  | ok result =>
    obtain ⟨status, left⟩ := result
    obtain rfl := hleaves _ _ _ _ hrun
    dsimp only
    rw [herase]
    by_cases hbyte : ∃ code : UInt8, status = .code code.toNat
    · obtain ⟨code, rfl⟩ := hbyte
      rw [ExitStatus.delegatedCode_toNat]
      exact .exited h hrun
    · have hstatus := not_exists.mp hbyte
      rw [ExitStatus.delegatedCode_of_ne hstatus]
      exact .ended h hrun hstatus

theorem crosses_cross : b.Crosses host entries path (b.cross host entries path) := by
  cases hscript : b.script path with
  | error e =>
    obtain ⟨problem, rfl⟩ := exists_problem_of_script hscript
    simp only [cross, hscript]
    exact .unrendered hscript
  | ok text =>
    cases hname : host.freshName entries host.tokens with
    | error e =>
      obtain ⟨problem, rfl⟩ := ScriptHost.exists_problem_of_freshName hname
      simp only [cross, hscript, hname]
      exact .uncreated hscript hname
    | ok name =>
      have hnew := ScriptHost.not_mem_of_freshName hname
      cases hwriting : host.writing with
      | some cause =>
        simp only [cross, hscript, hname, hwriting]
        rw [Table.put_of_not_mem hnew, Table.erase_append_of_not_mem hnew]
        exact .unwritten hscript hname hwriting
      | none => exact crosses_of_scripted hleaves ⟨hscript, hname, hnew, hwriting⟩

end

theorem Crosses.after_eq {c : Crossing} (h : b.Crosses host entries path c) :
    c.after = entries := by
  cases h <;> rfl

/-- A crossing leaves nothing behind if the host runtime leaves the directory alone. -/
theorem cross_leaves_nothing (b : Bridge) (host : ScriptHost) (entries : Table String)
    (path : String) (hleaves : ∀ name seen status left,
      host.execute b name seen = .ok (status, left) → left = seen) :
    b.Crosses host entries path (b.cross host entries path) ∧
      (b.cross host entries path).after = entries := by
  have hcrosses : b.Crosses host entries path (b.cross host entries path) := crosses_cross hleaves
  exact ⟨hcrosses, hcrosses.after_eq⟩

/-- A directory with a file that has the name to be tried first. -/
def crowdedEntries : Table String := [("viola-bridge-a.mjs", ""), ("notes", "n")]

/-- A host runtime that is started with a script, and ends with a code beyond a byte if it is. -/
def crowdedHost : ScriptHost where
  directory := "/tmp"
  tokens := ["a", "b"]
  execute b name seen := if seen.has name && b.runtime == "deno" then .ok (.code 300, seen)
    else .error .notFound

theorem cross_leaves_nothing_crowded :
    (∀ name seen status left, crowdedHost.execute ⟨"deno", [], "/bin/viola", []⟩ name seen =
      .ok (status, left) → left = seen) ∧
    (∃ text, Bridge.script ⟨"deno", [], "/bin/viola", []⟩ "/p/viola.config.ts" = .ok text ∧
      (Bridge.cross ⟨"deno", [], "/bin/viola", []⟩ crowdedHost crowdedEntries
        "/p/viola.config.ts").during = some (crowdedEntries ++ [("viola-bridge-b.mjs", text)])) ∧
    (Bridge.cross ⟨"deno", [], "/bin/viola", []⟩ crowdedHost crowdedEntries
      "/p/viola.config.ts").outcome = .ok (.delegated 1) ∧
    (Bridge.cross ⟨"deno", [], "/bin/viola", []⟩ crowdedHost crowdedEntries
      "/p/viola.config.ts").after = crowdedEntries := by
  have hleaves : ∀ name seen status left, crowdedHost.execute ⟨"deno", [], "/bin/viola", []⟩ name
      seen = .ok (status, left) → left = seen := by
    intro name seen status left h
    dsimp only [crowdedHost] at h
    split at h
    · cases h
      rfl
    · cases h
  obtain ⟨-, hafter⟩ := cross_leaves_nothing ⟨"deno", [], "/bin/viola", []⟩ crowdedHost
    crowdedEntries "/p/viola.config.ts" hleaves
  exact ⟨hleaves, ⟨_, rfl, rfl⟩, rfl, hafter⟩

end Bridge

end LintFront
