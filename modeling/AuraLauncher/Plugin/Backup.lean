import AuraLauncher.Plugin.Revision

/-!
# The backup of the plugin registry

`plugin_registry.rs`: the database is copied to `plugins.db.bak` after a write, and a database that
has become unusable is restored from the copy. The database is in WAL mode: what is committed is in
the main file only after a checkpoint, and it is the main file that is copied. The methods that
write the metadata of tools do not refresh the backup, and the others go on without it when the copy
fails.

* `RegistryFiles` — the committed rows, the main file and the backup.
* `RegistryFiles.writeBackup`, `RegistryFiles.mutate` — the copy, and a call with it.
* `RegistryFiles.recovered` — the database after the main file was lost.
* `RegistryFiles.Fresh`, `RegistryFiles.BacksUp` — what the backup is for, and the calls that keep
  it so.
* `fresh_along_iff` — the runs in which nothing is lost.
* `not_fresh_upsertTool` — a tool that is not in the backup.
-/

namespace AuraLauncher.Plugin

open AuraLauncher.Lib AuraLauncher.Workflow

variable (sj : SerdeJson)

/-- The database as it is on disk. -/
structure RegistryFiles where
  /-- The committed rows, those in the log included. -/
  main : PluginDb
  /-- What the main file holds without the log. -/
  file : PluginDb
  /-- `plugins.db.bak`. -/
  backup : Option PluginDb

/-- A call of a method and what becomes of the backup that it writes, if it writes one. -/
structure Mutation extends RegistryCall where
  /-- The checkpoint puts the log into the main file. -/
  checkpointed : Bool
  /-- The main file is copied and the copy takes the place of the backup. -/
  copied : Bool

namespace RegistryFiles

/-- A registry after an open that wrote its backup. -/
def opened (db : PluginDb) : RegistryFiles := ⟨db, db, some db⟩

variable (s : RegistryFiles)

/-- Source: `plugin_registry.rs`, `PluginRegistry::write_backup`. -/
def writeBackup (checkpointed copied : Bool) : RegistryFiles :=
  let file := if checkpointed then s.main else s.file
  ⟨s.main, file, if copied then some file else s.backup⟩

/-- A call with the refresh of the backup at its end. An error of the database is returned before
the refresh; an error of the refresh is logged. Source: `plugin_registry.rs`, the methods of
`PluginRegistry` that write. -/
def mutate (m : Mutation) : RegistryFiles :=
  let written := { s with main := s.main.call sj m.toRegistryCall }
  if m.answered && m.op.refreshesBackup then written.writeBackup m.checkpointed m.copied
  else written

/-- The database after its main file was found unusable. Source: `plugin_registry.rs`,
`PluginRegistry::open` with `try_restore_from_backup`. -/
def recovered : PluginDb := s.backup.getD PluginDb.empty

/-- The backup holds the rows of the database. -/
def Fresh : Prop := s.backup = some s.main

/-- The call does not leave a change out of the backup: it changes no row, or it refreshes the
backup and the refresh goes through. -/
def BacksUp (m : Mutation) : Prop :=
  m.answered = true →
    s.main.WritesNothing sj m.now m.op ∨
      m.op.refreshesBackup = true ∧ m.checkpointed = true ∧ m.copied = true

end RegistryFiles

/-- The registry under the calls of its methods. -/
def registryFiles : Machine RegistryFiles Mutation where
  step s m := some (s.mutate sj m)

namespace RegistryFiles

variable {sj} {s : RegistryFiles}

/-- Nothing is lost with the main file when the backup is fresh. -/
theorem recovered_of_fresh (h : s.Fresh) : s.recovered = s.main := by
  unfold recovered
  rw [h, Option.getD_some]

/-! ## One call -/

theorem main_mutate (m : Mutation) :
    (s.mutate sj m).main = s.main.call sj m.toRegistryCall := by
  unfold mutate
  split_ifs <;> rfl

theorem mutate_of_unanswered {m : Mutation} (h : m.answered = false) : s.mutate sj m = s := by
  simp [mutate, PluginDb.call, h]

/-- A method that does not refresh leaves the main file and the backup. -/
theorem mutate_of_not_refreshes {m : Mutation} (h : m.op.refreshesBackup = false) :
    s.mutate sj m = { s with main := s.main.call sj m.toRegistryCall } := by
  simp [mutate, h]

theorem mutate_of_refreshes {m : Mutation} (hanswered : m.answered = true)
    (h : m.op.refreshesBackup = true) :
    s.mutate sj m = ({ s with main := s.main.call sj m.toRegistryCall } : RegistryFiles).writeBackup
      m.checkpointed m.copied := by
  simp [mutate, hanswered, h]

/-- Without a refresh that goes through, the backup holds the rows from before the call. -/
theorem backup_mutate_opened (db : PluginDb) {m : Mutation}
    (h : ¬(m.op.refreshesBackup = true ∧ m.checkpointed = true ∧ m.copied = true)) :
    ((opened db).mutate sj m).backup = some db := by
  cases hrefreshes : m.op.refreshesBackup with
  | false =>
      rw [mutate_of_not_refreshes hrefreshes]
      rfl
  | true =>
      cases hanswered : m.answered with
      | false =>
          rw [mutate_of_unanswered hanswered]
          rfl
      | true =>
          rw [mutate_of_refreshes hanswered hrefreshes]
          cases hcopied : m.copied with
          | false => rfl
          | true =>
              -- without the checkpoint the copy is one of the old rows
              cases hcheckpointed : m.checkpointed with
              | false => rfl
              | true => exact absurd ⟨hrefreshes, hcheckpointed, hcopied⟩ h

variable (sj) in
/-- What a call does to files in step: the files after it are those of the new rows when, and only
when, the call does not leave a change out of the backup. -/
theorem mutate_opened_cases (db : PluginDb) (m : Mutation) :
    ((opened db).BacksUp sj m ∧
        (opened db).mutate sj m = opened (db.call sj m.toRegistryCall)) ∨
      (¬(opened db).BacksUp sj m ∧ ¬((opened db).mutate sj m).Fresh) := by
  unfold BacksUp
  cases hanswered : m.answered with
  | false =>
      refine .inl ⟨fun h => absurd h Bool.false_ne_true, ?_⟩
      rw [mutate_of_unanswered hanswered, PluginDb.call, hanswered]
      rfl
  | true =>
      have hcall : db.call sj m.toRegistryCall = db.apply sj m.now m.op :=
        PluginDb.call_of_answered hanswered
      rw [forall_prop_of_true rfl, ← PluginDb.apply_eq_self_iff]
      by_cases hsame : db.apply sj m.now m.op = db
      · -- no row is changed
        refine .inl ⟨.inl hsame, ?_⟩
        have hdb : db.call sj m.toRegistryCall = db := hcall.trans hsame
        unfold mutate writeBackup opened
        simp only [hdb, ite_self]
      · by_cases hthrough : m.op.refreshesBackup = true ∧ m.checkpointed = true ∧ m.copied = true
        · obtain ⟨hrefreshes, hcheckpointed, hcopied⟩ := hthrough
          refine .inl ⟨.inr ⟨hrefreshes, hcheckpointed, hcopied⟩, ?_⟩
          rw [mutate_of_refreshes hanswered hrefreshes, hcheckpointed, hcopied]
          rfl
        · refine .inr ⟨fun h => h.elim hsame hthrough, fun hfresh => hsame ?_⟩
          unfold Fresh at hfresh
          rw [backup_mutate_opened db hthrough, main_mutate] at hfresh
          exact hcall.symm.trans (Option.some.inj hfresh).symm

/-! ## Runs -/

/-- **Nothing acknowledged is lost.** After an open that wrote its backup, over any calls of the
methods: after every call that reports success the backup holds the rows of the database, and a
recovery restores them, when, and only when, every call that changes a row refreshes the backup and
the refresh goes through. -/
theorem fresh_along_iff (db : PluginDb) (ms : List Mutation) :
    (registryFiles sj).Along
        (fun s m => m.answered = true →
          (s.mutate sj m).Fresh ∧ (s.mutate sj m).recovered = (s.mutate sj m).main)
        (opened db) ms ↔
      (registryFiles sj).Along (BacksUp sj) (opened db) ms := by
  induction ms generalizing db with
  | nil => exact Iff.rfl
  | cons m ms ih =>
      have hnext : ∀ p : RegistryFiles → Prop,
          (∀ s', (registryFiles sj).step (opened db) m = some s' → p s') ↔
            p ((opened db).mutate sj m) := by
        intro p
        simp [registryFiles]
      simp only [Machine.Along, hnext]
      rcases mutate_opened_cases sj db m with ⟨hbacks, heq⟩ | ⟨hbacks, hstale⟩
      · rw [heq]
        exact and_congr (iff_of_true (fun _ => ⟨rfl, recovered_of_fresh rfl⟩) hbacks) (ih _)
      · have hanswered : m.answered = true := by
          by_contra hno
          exact hbacks fun h => absurd h hno
        exact iff_of_false (fun h => hstale (h.1 hanswered).1) fun h => hbacks h.1

/-- The metadata of a tool of a new registry. -/
def base64Tool : ToolMetadata := ⟨"1.0.0", "Base64", some "Codec", none, none, "interactive", 1⟩

/-- A tool is written and reported; a recovery does not have it, whatever becomes of copies. -/
theorem not_fresh_upsertTool :
    ¬ ∀ ms : List Mutation, (registryFiles SerdeJson.withoutFloats).Along
      (fun s m => m.answered = true →
        (s.mutate SerdeJson.withoutFloats m).Fresh ∧
          (s.mutate SerdeJson.withoutFloats m).recovered =
            (s.mutate SerdeJson.withoutFloats m).main)
      (opened PluginDb.empty) ms := by
  intro hall
  have hrecovered := ((hall [⟨⟨.upsertTool "p" "base64" base64Tool, 0, true⟩, true, true⟩]).1 rfl).2
  have htool := congrArg (fun db => (db.tools ("p", "base64")).isSome) hrecovered
  revert htool
  decide

end RegistryFiles

end AuraLauncher.Plugin
