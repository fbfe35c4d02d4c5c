import ArbitraryComposer.Serialize.SaveContext
import ArbitraryComposer.ToMathlib.CrashDisk
import ArbitraryComposer.ToMathlib.Machine

/-!
# The filesystem asset sink

Savers of any number of processes put assets into one directory. A put writes a temporary file and
renames it to the name of the asset. Nothing is synced, so a power loss may keep a rename without
the bytes; and the temporary name of a put is made of the hash of the thread and a count, which
savers in two processes may share.

## Main definitions

- `AssetDirectory`: the disk, and the savers that use it.
- `AssetDirectory.step`: one system call of a saver, a crash, a power loss.
- `AssetDirectory.NeverPartial`: what an asset directory promises.
- `AssetDirectory.Careful`: the condition on the runs.

## Main results

- `AssetDirectory.inv_of_reachable`: assets are staged, and every saver has its own file.
- `AssetDirectory.neverPartial_of_careful`: the promises hold in every careful run.
-/

namespace ArbitraryComposer

/-- A name in an asset directory. -/
inductive AssetPath (η δ : Type) where
  /-- The name of an asset. -/
  | asset (name : η)
  /-- `temp_path`: the directory of the target, the hash of the thread and the count. -/
  | temp (parent : δ) (tid n : UInt64)
  deriving DecidableEq

/-- The name is that of an asset. -/
def AssetPath.IsAsset {η δ : Type} (p : AssetPath η δ) : Prop := ∃ name, p = .asset name

/-- Where a saver is in `put`. -/
inductive SaverPc (η δ : Type) where
  /-- In no call. -/
  | idle
  /-- Before it asks whether the name exists. -/
  | checking (name : η) (bytes : List UInt8)
  /-- Before `create_directories`. -/
  | making (name : η) (bytes : List UInt8)
  /-- Before `temp_path`. -/
  | naming (name : η) (bytes : List UInt8)
  /-- Before it opens the temporary file. -/
  | opening (name : η) (bytes : List UInt8) (tmp : AssetPath η δ)
  /-- With the temporary file open and some bytes written. -/
  | writing (name : η) (bytes : List UInt8) (tmp : AssetPath η δ) (ino written : ℕ)
  /-- Before `rename`. -/
  | moving (name : η) (bytes : List UInt8) (tmp : AssetPath η δ)
  /-- After a failed `rename`, before it asks whether the name exists. -/
  | landing (name : η) (tmp : AssetPath η δ)
  /-- Before it removes the temporary file and returns. -/
  | removing (name : η) (tmp : AssetPath η δ) (outcome : Except AssetSinkError Bool)

/-- The temporary name of a put in progress. -/
def SaverPc.temp? {η δ : Type} : SaverPc η δ → Option (AssetPath η δ)
  | .opening _ _ tmp | .writing _ _ tmp _ _ | .moving _ _ tmp | .landing _ tmp
  | .removing _ tmp _ => some tmp
  | _ => none

/-- A saver. -/
structure Saver (η δ : Type) where
  /-- Where it is. -/
  pc : SaverPc η δ := .idle
  /-- The name and the outcome of its last put. -/
  last : Option (η × Except AssetSinkError Bool) := none

/-- A directory of assets, with the savers of all processes. -/
structure AssetDirectory (ι ρ η δ : Type) where
  /-- What is durable. -/
  durable : Disk (AssetPath η δ) UInt8
  /-- The changes that are not synced. -/
  pending : List (Disk.Change (AssetPath η δ) UInt8) := []
  /-- The number of the next file. -/
  next : ℕ
  /-- `s_counter` of every process. -/
  counter : ρ → UInt64
  /-- The savers. -/
  savers : ι → Saver η δ := fun _ => {}
  /-- The names and bytes of all calls of `put`. -/
  puts : List (η × List UInt8)

/-- The answer of the host to a system call. -/
inductive HostAnswer where
  /-- It succeeds; a write takes the given number of bytes and one more. -/
  | ok (count : ℕ)
  /-- It fails. -/
  | error

/-- The call succeeds. -/
def HostAnswer.isOk : HostAnswer → Bool
  | .ok _ => true
  | .error => false

/-- What happens next. -/
inductive AssetEvent (ι ρ η δ : Type) where
  /-- A saver calls `put`. -/
  | put (i : ι) (name : η) (bytes : List UInt8)
  /-- A saver makes its next system call. -/
  | step (i : ι) (answer : HostAnswer)
  /-- The host syncs the disk. -/
  | sync
  /-- A process crashes. -/
  | crash (process : ρ)
  /-- The power is lost, and some of the changes that are not synced are kept. -/
  | powerLoss (kept : List (Disk.Change (AssetPath η δ) UInt8))

namespace AssetDirectory

variable {ι ρ η δ : Type} [DecidableEq ι] [DecidableEq ρ] [DecidableEq η] [DecidableEq δ]

/-- Where the savers are: the process and the hash of the thread of each, and the directory of a
name. -/
structure Setting (ι ρ η δ : Type) where
  /-- The process of a saver. -/
  process : ι → ρ
  /-- The hash of the thread of a saver. -/
  tid : ι → UInt64
  /-- The directory of a name. -/
  parent : η → δ

omit [DecidableEq ι] [DecidableEq ρ] in
/-- The disk as the processes see it. -/
def view (s : AssetDirectory ι ρ η δ) : Disk (AssetPath η δ) UInt8 :=
  s.durable.applyAll s.pending

/-- A saver goes on. -/
def goto (s : AssetDirectory ι ρ η δ) (i : ι) (pc : SaverPc η δ) : AssetDirectory ι ρ η δ :=
  { s with savers := Function.update s.savers i { s.savers i with pc := pc } }

/-- A put returns. -/
def finish (s : AssetDirectory ι ρ η δ) (i : ι) (name : η) (outcome : Except AssetSinkError Bool) :
    AssetDirectory ι ρ η δ :=
  { s with savers := Function.update s.savers i { pc := .idle, last := some (name, outcome) } }

omit [DecidableEq ι] [DecidableEq ρ] [DecidableEq η] [DecidableEq δ] in
/-- The disk is changed. -/
def alter (s : AssetDirectory ι ρ η δ) (c : Disk.Change (AssetPath η δ) UInt8) :
    AssetDirectory ι ρ η δ :=
  { s with pending := s.pending ++ [c] }

omit [DecidableEq ι] [DecidableEq ρ] in
/-- `contains`, and the test of `put`: the name exists and the query does not fail. -/
def contains (s : AssetDirectory ι ρ η δ) (name : η) (answer : HostAnswer) : Bool :=
  (s.view.dir (.asset name)).isSome && answer.isOk

variable (w : Setting ι ρ η δ)

/-- The next system call of a saver. -/
def advance (s : AssetDirectory ι ρ η δ) (i : ι) (answer : HostAnswer) :
    Option (AssetDirectory ι ρ η δ) :=
  match (s.savers i).pc with
  | .idle => none
  | .checking name bytes =>
    some (if s.contains name answer then s.finish i name (.ok false)
      else s.goto i (.making name bytes))
  | .making name bytes =>
    some (if answer.isOk then s.goto i (.naming name bytes)
      else s.finish i name (.error .writeFailed))
  | .naming name bytes =>
    let n := s.counter (w.process i)
    let tmp := .temp (w.parent name) (w.tid i) n
    some (goto { s with counter := Function.update s.counter (w.process i) (n + 1) } i
      (.opening name bytes tmp))
  | .opening name bytes tmp =>
    some (if answer.isOk then
        match s.view.dir tmp with
        | some ino => (s.alter (.truncate ino)).goto i (.writing name bytes tmp ino 0)
        | none =>
          goto { s.alter (.create tmp s.next) with next := s.next + 1 } i
            (.writing name bytes tmp s.next 0)
      else s.finish i name (.error .writeFailed))
  | .writing name bytes tmp ino written =>
    some (match answer with
      | .error => s.goto i (.removing name tmp (.error .writeFailed))
      | .ok count =>
        if written < bytes.length then
          let chunk := (bytes.drop written).take (count + 1)
          (s.alter (.write ino written chunk)).goto i
            (.writing name bytes tmp ino (written + chunk.length))
        else s.goto i (.moving name bytes tmp))
  | .moving name _ tmp =>
    some (match s.view.dir tmp, answer with
      | some ino, .ok _ => (s.alter (.rename tmp (.asset name) ino)).finish i name (.ok true)
      | _, _ => s.goto i (.landing name tmp))
  | .landing name tmp =>
    some (s.goto i (.removing name tmp
      (if s.contains name answer then .ok false else .error .writeFailed)))
  | .removing name tmp outcome =>
    some (if answer.isOk then (s.alter (.remove tmp)).finish i name outcome
      else s.finish i name outcome)

/-- What happens to an asset directory. -/
def step : AssetEvent ι ρ η δ → AssetDirectory ι ρ η δ → Option (AssetDirectory ι ρ η δ)
  | .put i name bytes, s =>
    match (s.savers i).pc with
    | .idle => some (goto { s with puts := s.puts ++ [(name, bytes)] } i (.checking name bytes))
    | _ => none
  | .step i answer, s => s.advance w i answer
  | .sync, s => some { s with durable := s.view, pending := [] }
  | .crash process, s =>
    some { s with savers := fun i => if w.process i = process then {} else s.savers i }
  | .powerLoss kept, s =>
    if kept.isSublist s.pending then
      some { s with durable := s.durable.applyAll kept, pending := [], savers := fun _ => {} }
    else none

/-! ## What is promised -/

omit [DecidableEq ι] [DecidableEq ρ] in
/-- What the file of an asset holds. -/
def assetContent (s : AssetDirectory ι ρ η δ) (name : η) : Option (List UInt8) :=
  (s.view.dir (.asset name)).map s.view.files

/-- An asset is never partial. -/
structure NeverPartial (s : AssetDirectory ι ρ η δ) : Prop where
  /-- An asset holds the bytes of a put of its name. -/
  complete : ∀ name content, s.assetContent name = some content → (name, content) ∈ s.puts
  /-- A put reports success only when the asset does. -/
  reports : ∀ i answer s' name b, step w (.step i answer) s = some s' →
    (s'.savers i).pc = .idle → (s'.savers i).last = some (name, .ok b) →
    ∃ content, s'.assetContent name = some content ∧ (name, content) ∈ s'.puts
  /-- A put leaves all assets as they are, but for the step in which it reports that it has written
  its own. -/
  leaves : ∀ i answer s', step w (.step i answer) s = some s' →
    (∀ name, s'.assetContent name = s.assetContent name) ∨
      ∃ name, (s'.savers i).pc = .idle ∧ (s'.savers i).last = some (name, .ok true) ∧
        ∀ name', name' ≠ name → s'.assetContent name' = s.assetContent name'

omit [DecidableEq ι] [DecidableEq ρ] [DecidableEq η] [DecidableEq δ] in
/-- A directory as earlier runs have left it: no saver is at work, every asset holds the bytes of a
put of its name, and no file has two names. -/
structure Clean (s : AssetDirectory ι ρ η δ) : Prop where
  /-- Everything is durable. -/
  pending : s.pending = []
  /-- No saver is at work. -/
  savers : ∀ i, (s.savers i).pc = .idle
  /-- The assets are complete. -/
  complete : ∀ name ino, s.durable.dir (.asset name) = some ino →
    (name, s.durable.files ino) ∈ s.puts
  /-- No file has two names. -/
  once : ∀ p p' ino, s.durable.dir p = some ino → s.durable.dir p' = some ino → p = p'
  /-- The files are old. -/
  dir_lt : ∀ p ino, s.durable.dir p = some ino → ino < s.next
  /-- New files are empty. -/
  fresh : ∀ ino, s.next ≤ ino → s.durable.files ino = []

/-- The runs of the savers of a directory. -/
def machine : Machine (AssetDirectory ι ρ η δ) (AssetEvent ι ρ η δ) where
  start := Clean
  step := step w

omit [DecidableEq ι] in
/-- No put takes the temporary name of another that is in progress, and a power loss that keeps a
rename keeps the contents of its file. -/
def Careful : AssetEvent ι ρ η δ → AssetDirectory ι ρ η δ → Prop
  | .step i _, s => ∀ name bytes, (s.savers i).pc = .naming name bytes → ∀ j, j ≠ i →
      (s.savers j).pc.temp? ≠ some (.temp (w.parent name) (w.tid i) (s.counter (w.process i)))
  | .powerLoss kept, s => Disk.KeepsContents s.pending kept
  | _, _ => True

/-! ## The invariant -/

/-- The bytes are those of a put of the asset's name. -/
def Good (puts : List (η × List UInt8)) (p : AssetPath η δ) (content : List UInt8) : Prop :=
  ∃ name, p = .asset name ∧ (name, content) ∈ puts

/-- What holds of a saver where it is. -/
def PcOk (v : Disk (AssetPath η δ) UInt8) (puts : List (η × List UInt8)) : SaverPc η δ → Prop
  | .idle => True
  | .checking name bytes | .making name bytes | .naming name bytes => (name, bytes) ∈ puts
  | .opening name bytes tmp => (name, bytes) ∈ puts ∧ ¬ tmp.IsAsset
  | .writing name bytes tmp ino written => (name, bytes) ∈ puts ∧ ¬ tmp.IsAsset ∧
      v.dir tmp = some ino ∧ v.files ino = bytes.take written ∧ written ≤ bytes.length
  | .moving name bytes tmp => (name, bytes) ∈ puts ∧ ¬ tmp.IsAsset ∧
      ∃ ino, v.dir tmp = some ino ∧ v.files ino = bytes
  | .landing _ tmp => ¬ tmp.IsAsset
  | .removing name tmp outcome => ¬ tmp.IsAsset ∧
      ∀ b, outcome = .ok b → (v.dir (.asset name)).isSome = true

/-- The invariant of an asset directory. -/
structure Inv (s : AssetDirectory ι ρ η δ) : Prop where
  /-- The assets are staged. -/
  staged : Disk.Staged AssetPath.IsAsset (Good s.puts) s.durable s.pending s.next
  /-- The savers. -/
  savers : ∀ i, PcOk s.view s.puts (s.savers i).pc
  /-- Every put in progress has its own temporary name. -/
  distinct : ∀ i j tmp, (s.savers i).pc.temp? = some tmp → (s.savers j).pc.temp? = some tmp → i = j

section Steps

variable {w} {s s' : AssetDirectory ι ρ η δ} {i j : ι} {tmp : AssetPath η δ}
  {v v' : Disk (AssetPath η δ) UInt8} {c : Disk.Change (AssetPath η δ) UInt8}
  {puts puts' : List (η × List UInt8)} {pc : SaverPc η δ}

omit [DecidableEq η] [DecidableEq δ] in
/-- A saver keeps what holds of it while nobody changes its file. -/
theorem PcOk.frame (h : PcOk v puts pc) (hputs : puts ⊆ puts')
    (hdir : ∀ tmp, pc.temp? = some tmp → v'.dir tmp = v.dir tmp)
    (hfiles : ∀ tmp ino, pc.temp? = some tmp → v.dir tmp = some ino → v'.files ino = v.files ino)
    (hassets : ∀ name, (v.dir (.asset name)).isSome = true → (v'.dir (.asset name)).isSome = true) :
    PcOk v' puts' pc := by
  cases pc with
  | idle => trivial
  | checking name bytes => exact hputs h
  | making name bytes => exact hputs h
  | naming name bytes => exact hputs h
  | opening name bytes tmp => exact ⟨hputs h.1, h.2⟩
  | writing name bytes tmp ino written =>
    obtain ⟨hput, hasset, hbound, hfile, hle⟩ := h
    exact ⟨hputs hput, hasset, (hdir tmp rfl).trans hbound, (hfiles tmp ino rfl hbound).trans hfile,
      hle⟩
  | moving name bytes tmp =>
    obtain ⟨hput, hasset, ino, hbound, hfile⟩ := h
    exact ⟨hputs hput, hasset, ino, (hdir tmp rfl).trans hbound,
      (hfiles tmp ino rfl hbound).trans hfile⟩
  | landing name tmp => exact h
  | removing name tmp outcome => exact ⟨h.1, fun b hb => hassets name (h.2 b hb)⟩

/-- A change that a saver makes to its own temporary file, or its renaming. -/
inductive Local (v : Disk (AssetPath η δ) UInt8) (tmp : AssetPath η δ) :
    Disk.Change (AssetPath η δ) UInt8 → Prop where
  /-- The file is created. -/
  | create (ino : ℕ) : Local v tmp (.create tmp ino)
  /-- It is emptied. -/
  | truncate {ino : ℕ} (h : v.dir tmp = some ino) : Local v tmp (.truncate ino)
  /-- Bytes are written into it. -/
  | write {ino : ℕ} (h : v.dir tmp = some ino) (offset : ℕ) (bytes : List UInt8) :
    Local v tmp (.write ino offset bytes)
  /-- It becomes an asset. -/
  | rename (name : η) (ino : ℕ) : Local v tmp (.rename tmp (.asset name) ino)
  /-- Its name is removed. -/
  | remove : Local v tmp (.remove tmp)

/-- Other temporary names are not changed. -/
theorem Local.dir (h : Local v tmp c) {p : AssetPath η δ} (hne : p ≠ tmp) (hp : ¬ p.IsAsset) :
    (v.apply c).dir p = v.dir p := by
  cases h with
  | create ino => exact Function.update_of_ne hne _ _
  | truncate => rfl
  | write => rfl
  | rename name ino =>
    have hasset : p ≠ .asset name := fun heq => hp ⟨name, heq⟩
    exact (Function.update_of_ne hasset _ _).trans (Function.update_of_ne hne _ _)
  | remove => exact Function.update_of_ne hne _ _

/-- Other files are not changed. -/
theorem Local.files (h : Local v tmp c) {ino : ℕ} (hne : v.dir tmp ≠ some ino) :
    (v.apply c).files ino = v.files ino := by
  apply Disk.files_apply_of_not_touches
  cases h with
  | create => rfl
  | rename => rfl
  | remove => rfl
  | truncate hdir => exact decide_eq_false fun heq => hne (heq ▸ hdir)
  | write hdir offset bytes => exact decide_eq_false fun heq => hne (heq ▸ hdir)

/-- No asset goes away. -/
theorem Local.assets (h : Local v tmp c) (htmp : ¬ tmp.IsAsset) {name : η}
    (hsome : (v.dir (.asset name)).isSome = true) :
    ((v.apply c).dir (.asset name)).isSome = true := by
  have hne : AssetPath.asset name ≠ tmp := fun heq => htmp ⟨name, heq.symm⟩
  cases h with
  | create ino =>
    rw [show (v.apply (.create tmp ino)).dir = Function.update v.dir tmp (some ino) from rfl,
      Function.update_of_ne hne]
    exact hsome
  | truncate => exact hsome
  | write => exact hsome
  | remove =>
    rw [show (v.apply (.remove tmp)).dir = Function.update v.dir tmp none from rfl,
      Function.update_of_ne hne]
    exact hsome
  | rename name' ino =>
    show (Function.update (Function.update v.dir tmp none) (.asset name') (some ino)
      (.asset name)).isSome = true
    by_cases hname : AssetPath.asset (δ := δ) name = .asset name'
    · rw [hname, Function.update_self]
      rfl
    · rw [Function.update_of_ne hname, Function.update_of_ne hne]
      exact hsome

omit [DecidableEq ρ] in
/-- A saver goes on, and the disk with it. -/
theorem Inv.update {t : Saver η δ} (h : s.Inv)
    (hsavers : s'.savers = Function.update s.savers i t)
    (hstaged : Disk.Staged AssetPath.IsAsset (Good s'.puts) s'.durable s'.pending s'.next)
    (hothers : ∀ j, j ≠ i → PcOk s'.view s'.puts (s.savers j).pc)
    (hself : PcOk s'.view s'.puts t.pc)
    (htemp : ∀ tmp, t.pc.temp? = some tmp → ∀ j, j ≠ i → (s.savers j).pc.temp? ≠ some tmp) :
    s'.Inv where
  staged := hstaged
  savers j := by
    rw [hsavers]
    by_cases hj : j = i
    · subst hj
      rw [Function.update_self]
      exact hself
    · rw [Function.update_of_ne hj]
      exact hothers j hj
  distinct j k tmp hj hk := by
    rw [hsavers] at hj hk
    by_cases hji : j = i <;> by_cases hki : k = i
    · rw [hji, hki]
    · subst hji
      rw [Function.update_self] at hj
      rw [Function.update_of_ne hki] at hk
      exact absurd hk (htemp tmp hj k hki)
    · subst hki
      rw [Function.update_self] at hk
      rw [Function.update_of_ne hji] at hj
      exact absurd hj (htemp tmp hk j hji)
    · rw [Function.update_of_ne hji] at hj
      rw [Function.update_of_ne hki] at hk
      exact h.distinct j k tmp hj hk

omit [DecidableEq ρ] in
/-- A saver goes on and leaves the disk as it is. -/
theorem Inv.goto (h : s.Inv) (hself : PcOk s.view s.puts pc)
    (htemp : ∀ tmp, pc.temp? = some tmp → ∀ j, j ≠ i → (s.savers j).pc.temp? ≠ some tmp) :
    (s.goto i pc).Inv :=
  h.update rfl h.staged (fun j _ => h.savers j) hself htemp

omit [DecidableEq ρ] in
/-- A put returns and leaves the disk as it is. -/
theorem Inv.finish (h : s.Inv) (i : ι) (name : η) (outcome : Except AssetSinkError Bool) :
    (s.finish i name outcome).Inv :=
  h.update rfl h.staged (fun j _ => h.savers j) trivial fun _ htemp => by cases htemp

omit [DecidableEq ι] [DecidableEq ρ] in
/-- Nobody else has the temporary name of a saver. -/
theorem Inv.temp_ne (h : s.Inv) (htmp : (s.savers i).pc.temp? = some tmp) :
    ∀ j, j ≠ i → (s.savers j).pc.temp? ≠ some tmp :=
  fun j hj hsame => hj (h.distinct j i tmp hsame htmp)

omit [DecidableEq η] [DecidableEq δ] in
/-- The temporary name of a saver is not that of an asset. -/
theorem PcOk.not_asset (h : PcOk v puts pc) (htmp : pc.temp? = some tmp) : ¬ tmp.IsAsset := by
  cases pc with
  | idle => cases htmp
  | checking name bytes => cases htmp
  | making name bytes => cases htmp
  | naming name bytes => cases htmp
  | opening name bytes tmp' =>
    cases htmp
    exact h.2
  | writing name bytes tmp' ino written =>
    cases htmp
    exact h.2.1
  | moving name bytes tmp' =>
    cases htmp
    exact h.2.1
  | landing name tmp' =>
    cases htmp
    exact h
  | removing name tmp' outcome =>
    cases htmp
    exact h.1

omit [DecidableEq ι] [DecidableEq ρ] in
/-- A change of a saver's own file leaves the others as they are. -/
theorem Inv.others (h : s.Inv) (htmp : (s.savers i).pc.temp? = some tmp) (hc : Local s.view tmp c) :
    ∀ j, j ≠ i → PcOk (s.view.apply c) s.puts (s.savers j).pc := by
  intro j hj
  have hasset := (h.savers i).not_asset htmp
  refine (h.savers j).frame (List.Subset.refl _) ?_ ?_ fun name => hc.assets hasset
  · intro tmp' htmp'
    have hne : tmp' ≠ tmp := fun heq => h.temp_ne htmp j hj (heq ▸ htmp')
    exact hc.dir hne ((h.savers j).not_asset htmp')
  · intro tmp' ino htmp' hdir
    apply hc.files
    intro hmine
    have hasset' := (h.savers j).not_asset htmp'
    have hsame := h.staged.once tmp' tmp ino hasset' hasset (h.staged.bound hasset' hdir)
      (h.staged.bound hasset hmine)
    exact h.temp_ne htmp j hj (hsame ▸ htmp')

omit [DecidableEq ρ] in
/-- A saver changes its own file and goes on with the same temporary name, or returns. -/
theorem Inv.alter {t : Saver η δ} (h : s.Inv) (htmp : (s.savers i).pc.temp? = some tmp)
    (hc : Local s.view tmp c) (hsavers : s'.savers = Function.update s.savers i t)
    (hputs : s'.puts = s.puts) (hdurable : s'.durable = s.durable)
    (hpending : s'.pending = s.pending ++ [c])
    (hstaged : Disk.Staged AssetPath.IsAsset (Good s.puts) s.durable (s.pending ++ [c]) s'.next)
    (hself : PcOk (s.view.apply c) s.puts t.pc)
    (htemp : t.pc.temp? = some tmp ∨ t.pc.temp? = none) : s'.Inv := by
  have hview : s'.view = s.view.apply c := by
    rw [view, hdurable, hpending]
    exact Disk.applyAll_append_singleton
  refine h.update hsavers ?_ ?_ ?_ ?_
  · rw [hputs, hdurable, hpending]
    exact hstaged
  · rw [hview, hputs]
    exact h.others htmp hc
  · rw [hview, hputs]
    exact hself
  · intro tmp' htmp' j hj
    rcases htemp with hsame | hnone
    · rw [hsame] at htmp'
      obtain rfl := Option.some.inj htmp'
      exact h.temp_ne htmp j hj
    · rw [hnone] at htmp'
      cases htmp'

omit [DecidableEq η] [DecidableEq δ] in
theorem not_asset_temp (parent : δ) (tid n : UInt64) :
    ¬ (AssetPath.temp (η := η) parent tid n).IsAsset := by
  rintro ⟨name, h⟩
  cases h

/-- A part more of the bytes has been written. -/
theorem writeAt_take {bytes : List UInt8} {written count : ℕ} (hle : written ≤ bytes.length) :
    Disk.writeAt (bytes.take written) written ((bytes.drop written).take count) =
      bytes.take (written + ((bytes.drop written).take count).length) := by
  have hlength : (bytes.take written).length = written := List.length_take_of_le hle
  have hwrite := Disk.writeAt_length (bytes.take written) ((bytes.drop written).take count)
  rw [hlength] at hwrite
  rw [hwrite, List.take_add, List.length_take, ← List.take_eq_take_min]

/-- Opening the temporary file keeps the invariant. -/
theorem Inv.openTemp {name : η} {bytes : List UInt8} (h : s.Inv)
    (hpc : (s.savers i).pc = .opening name bytes tmp) (answer : HostAnswer)
    (hs : s.advance w i answer = some s') : s'.Inv := by
  have htmp : (s.savers i).pc.temp? = some tmp := by rw [hpc]; rfl
  have hok := h.savers i
  rw [hpc] at hok
  obtain ⟨hput, hasset⟩ := hok
  simp only [advance, hpc] at hs
  obtain rfl := Option.some.inj hs
  split
  case isFalse => exact h.finish i _ _
  case isTrue =>
    split
    case h_1 ino hdir =>
      refine h.alter htmp (.truncate hdir) rfl rfl rfl rfl (h.staged.truncate hasset hdir) ?_
        (Or.inl rfl)
      exact ⟨hput, hasset, hdir, Function.update_self _ _ _, Nat.zero_le _⟩
    case h_2 hnone =>
      refine h.alter htmp (.create s.next) rfl rfl rfl rfl (h.staged.create hasset) ?_
        (Or.inl rfl)
      refine ⟨hput, hasset, Function.update_self _ _ _, ?_, Nat.zero_le _⟩
      -- a new file is empty, and no change touches it
      show s.view.files s.next = _
      rw [view, Disk.files_applyAll_of_not_touches, h.staged.fresh _ (Nat.le_refl _),
        List.take_zero]
      intro c hc
      apply Bool.eq_false_iff.mpr
      exact fun htouches => Nat.lt_irrefl _ (h.staged.touches_lt c hc _ htouches)

/-- Writing keeps the invariant. -/
theorem Inv.writeTemp {name : η} {bytes : List UInt8} {ino written : ℕ} (h : s.Inv)
    (hpc : (s.savers i).pc = .writing name bytes tmp ino written) (answer : HostAnswer)
    (hs : s.advance w i answer = some s') : s'.Inv := by
  have htmp : (s.savers i).pc.temp? = some tmp := by rw [hpc]; rfl
  have hok := h.savers i
  rw [hpc] at hok
  obtain ⟨hput, hasset, hdir, hfile, hle⟩ := hok
  have hsame : ∀ {pc : SaverPc η δ}, pc.temp? = some tmp → ∀ tmp', pc.temp? = some tmp' →
      ∀ j, j ≠ i → (s.savers j).pc.temp? ≠ some tmp' := by
    intro pc hpc' tmp' htmp'
    rw [hpc'] at htmp'
    obtain rfl := Option.some.inj htmp'
    exact h.temp_ne htmp
  simp only [advance, hpc] at hs
  obtain rfl := Option.some.inj hs
  split
  case h_1 => exact h.goto ⟨hasset, fun b hb => by cases hb⟩ (hsame rfl)
  case h_2 count =>
    split
    case isFalse hdone =>
      refine h.goto ⟨hput, hasset, ino, hdir, ?_⟩ (hsame rfl)
      rw [hfile]
      exact List.take_of_length_le (Nat.le_of_not_lt hdone)
    case isTrue hmore =>
      refine h.alter htmp (.write hdir _ _) rfl rfl rfl rfl (h.staged.write hasset hdir _ _) ?_
        (Or.inl rfl)
      refine ⟨hput, hasset, hdir, ?_, ?_⟩
      · refine (Function.update_self _ _ _).trans ?_
        rw [hfile]
        exact writeAt_take hle
      · rw [List.length_take, List.length_drop]
        omega

/-- Renaming keeps the invariant. -/
theorem Inv.moveTemp {name : η} {bytes : List UInt8} (h : s.Inv)
    (hpc : (s.savers i).pc = .moving name bytes tmp) (answer : HostAnswer)
    (hs : s.advance w i answer = some s') : s'.Inv := by
  have htmp : (s.savers i).pc.temp? = some tmp := by rw [hpc]; rfl
  have hok := h.savers i
  rw [hpc] at hok
  obtain ⟨hput, hasset, ino, hdir, hfile⟩ := hok
  simp only [advance, hpc, hdir] at hs
  obtain rfl := Option.some.inj hs
  cases answer with
  | error =>
    refine h.goto hasset fun tmp' htmp' => ?_
    obtain rfl := Option.some.inj htmp'
    exact h.temp_ne htmp
  | ok count =>
    have hgood : Good s.puts (.asset (δ := δ) name) (s.view.files ino) := ⟨name, rfl, hfile ▸ hput⟩
    exact h.alter htmp (.rename name ino) rfl rfl rfl rfl
      (h.staged.rename hasset ⟨name, rfl⟩ hdir hgood) trivial (Or.inr rfl)

/-- Every system call of a saver keeps the invariant. -/
theorem Inv.advance {answer : HostAnswer} (h : s.Inv) (hcareful : Careful w (.step i answer) s)
    (hs : s.advance w i answer = some s') : s'.Inv := by
  have hok := h.savers i
  cases hpc : (s.savers i).pc with
  | idle =>
    simp only [AssetDirectory.advance, hpc] at hs
    cases hs
  | checking name bytes =>
    rw [hpc] at hok
    simp only [AssetDirectory.advance, hpc] at hs
    obtain rfl := Option.some.inj hs
    split
    case isTrue => exact h.finish i _ _
    case isFalse => exact h.goto hok fun _ htemp => by cases htemp
  | making name bytes =>
    rw [hpc] at hok
    simp only [AssetDirectory.advance, hpc] at hs
    obtain rfl := Option.some.inj hs
    split
    case isTrue => exact h.goto hok fun _ htemp => by cases htemp
    case isFalse => exact h.finish i _ _
  | naming name bytes =>
    rw [hpc] at hok
    simp only [AssetDirectory.advance, hpc] at hs
    obtain rfl := Option.some.inj hs
    refine h.update rfl h.staged (fun j _ => h.savers j) ⟨hok, not_asset_temp _ _ _⟩ ?_
    intro tmp htmp j hj
    obtain rfl := Option.some.inj htmp
    exact hcareful name bytes hpc j hj
  | opening name bytes tmp => exact h.openTemp hpc answer hs
  | writing name bytes tmp ino written => exact h.writeTemp hpc answer hs
  | moving name bytes tmp => exact h.moveTemp hpc answer hs
  | landing name tmp =>
    rw [hpc] at hok
    have htmp : (s.savers i).pc.temp? = some tmp := by rw [hpc]; rfl
    simp only [AssetDirectory.advance, hpc] at hs
    obtain rfl := Option.some.inj hs
    refine h.goto ⟨hok, fun b hb => ?_⟩ fun tmp' htmp' => ?_
    · split at hb
      case isTrue hexists =>
        rw [contains, Bool.and_eq_true] at hexists
        exact hexists.1
      case isFalse => cases hb
    · obtain rfl := Option.some.inj htmp'
      exact h.temp_ne htmp
  | removing name tmp outcome =>
    rw [hpc] at hok
    have htmp : (s.savers i).pc.temp? = some tmp := by rw [hpc]; rfl
    simp only [AssetDirectory.advance, hpc] at hs
    obtain rfl := Option.some.inj hs
    split
    case isFalse => exact h.finish i _ _
    case isTrue =>
      exact h.alter htmp .remove rfl rfl rfl rfl (h.staged.remove hok.1) trivial (Or.inr rfl)

omit [DecidableEq η] [DecidableEq δ] in
/-- A put of more does not matter. -/
theorem Good.mono {p : AssetPath η δ} {content : List UInt8} (hputs : puts ⊆ puts')
    (h : Good puts p content) : Good puts' p content :=
  h.imp fun _ hgood => ⟨hgood.1, hputs hgood.2⟩

/-- Every careful step keeps the invariant. -/
theorem Inv.step {e : AssetEvent ι ρ η δ} (h : s.Inv) (hcareful : Careful w e s)
    (hs : step w e s = some s') : s'.Inv := by
  cases e with
  | put i name bytes =>
    simp only [AssetDirectory.step] at hs
    split at hs
    case h_2 => cases hs
    case h_1 hpc =>
      obtain rfl := Option.some.inj hs
      have hsub : s.puts ⊆ s.puts ++ [(name, bytes)] := List.subset_append_left _ _
      refine h.update rfl (h.staged.mono fun p content => Good.mono hsub)
        (fun j _ => (h.savers j).frame hsub (fun _ _ => rfl) (fun _ _ _ _ => rfl) fun _ => id) ?_
        fun _ htemp => by cases htemp
      exact List.mem_append_right _ (List.mem_singleton_self _)
  | step i answer => exact h.advance hcareful hs
  | sync =>
    obtain rfl := Option.some.inj hs
    exact ⟨h.staged.lose (List.Sublist.refl _) fun _ _ _ _ => rfl, h.savers, h.distinct⟩
  | crash process =>
    obtain rfl := Option.some.inj hs
    refine ⟨h.staged, fun i => ?_, fun i j tmp hi hj => ?_⟩
    · dsimp only
      split
      case isTrue => trivial
      case isFalse => exact h.savers i
    · dsimp only at hi hj
      split at hi
      case isTrue => cases hi
      case isFalse =>
        split at hj
        case isTrue => cases hj
        case isFalse => exact h.distinct i j tmp hi hj
  | powerLoss kept =>
    simp only [AssetDirectory.step] at hs
    split at hs
    case isFalse => cases hs
    case isTrue hsub =>
      obtain rfl := Option.some.inj hs
      exact ⟨h.staged.lose (List.isSublist_iff_sublist.mp hsub) hcareful, fun _ => trivial,
        fun _ _ _ hi => by cases hi⟩

omit [DecidableEq ι] [DecidableEq ρ] in
/-- A clean directory is staged. -/
theorem Clean.inv (h : s.Clean) : s.Inv where
  staged := by
    have hdir : ∀ p ino, Disk.Bound s.durable s.pending p ino → s.durable.dir p = some ino := by
      rintro p ino (hdir | hcreate)
      · exact hdir
      · rw [h.pending] at hcreate
        cases hcreate
    constructor
    case ordered => rw [h.pending]; exact List.Pairwise.nil
    case renames => rw [h.pending]; exact fun _ _ _ hin => by cases hin
    case creates => rw [h.pending]; exact fun _ _ hin => by cases hin
    case removes => rw [h.pending]; exact fun _ hin => by cases hin
    case once => exact fun p p' ino _ _ hb hb' => h.once p p' ino (hdir p ino hb) (hdir p' ino hb')
    case source => rw [h.pending]; exact fun _ _ _ hin => by cases hin
    case apart =>
      intro q ino hq hold p hp hb
      obtain rfl := h.once q p ino hold (hdir p ino hb)
      exact hp hq
    case settled =>
      rintro q ino ⟨name, rfl⟩ hold
      exact ⟨name, rfl, h.complete name ino hold⟩
    case frozen => rw [h.pending]; exact fun _ _ _ _ _ hin => by cases hin
    case renamed => rw [h.pending]; exact fun _ _ _ hin => by cases hin
    case dir_lt => exact h.dir_lt
    case create_lt => rw [h.pending]; exact fun _ _ hin => by cases hin
    case rename_lt => rw [h.pending]; exact fun _ _ _ hin => by cases hin
    case touches_lt => rw [h.pending]; exact fun _ hin => by cases hin
    case fresh => exact h.fresh
  savers i := by
    rw [h.savers i]
    trivial
  distinct i j tmp hi := by
    rw [h.savers i] at hi
    cases hi

/-- The invariant holds in every careful run. -/
theorem inv_of_reachable (h : (machine w).Reachable (Careful w) s) : s.Inv :=
  h.invariant (fun _ hs => hs.inv) fun _ _ _ hs hcareful hstep => hs.step hcareful hstep

/-! ## The promises -/

omit [DecidableEq ι] [DecidableEq ρ] in
/-- An asset holds the bytes of a put of its name. -/
theorem Inv.complete (h : s.Inv) {name : η} {content : List UInt8}
    (hcontent : s.assetContent name = some content) : (name, content) ∈ s.puts := by
  obtain ⟨ino, hdir, rfl⟩ := Option.map_eq_some_iff.mp hcontent
  obtain ⟨name', heq, hput⟩ := h.staged.complete ⟨name, rfl⟩ hdir
  cases heq
  exact hput

omit [DecidableEq ι] [DecidableEq ρ] in
/-- An asset that exists holds something. -/
theorem exists_assetContent {name : η} (h : (s.view.dir (.asset name)).isSome = true) :
    ∃ content, s.assetContent name = some content := by
  obtain ⟨ino, hdir⟩ := Option.isSome_iff_exists.mp h
  exact ⟨s.view.files ino, by rw [assetContent, hdir]; rfl⟩

omit [DecidableEq ι] [DecidableEq ρ] in
/-- The file of a temporary name is not that of an asset. -/
theorem Inv.asset_ne (h : s.Inv) {ino : ℕ} (hasset : ¬ tmp.IsAsset)
    (hdir : s.view.dir tmp = some ino) (name : η) : s.view.dir (.asset name) ≠ some ino := by
  intro hname
  rcases Disk.dir_applyAll hname with hold | hcreate | ⟨p, hrename⟩
  · exact h.staged.not_final hasset hdir ⟨name, rfl⟩ hold
  · exact h.staged.creates _ ino hcreate ⟨name, rfl⟩
  · exact h.staged.not_renamed hasset hdir p _ hrename

/-- A change of a temporary file leaves an asset as it is, unless it becomes that asset. -/
theorem Local.content (hc : Local v tmp c) (hasset : ¬ tmp.IsAsset) {name : η}
    (hapart : ∀ ino, v.dir tmp = some ino → v.dir (.asset name) ≠ some ino)
    (hrename : ∀ ino, c ≠ .rename tmp (.asset name) ino) :
    ((v.apply c).dir (.asset name)).map (v.apply c).files = (v.dir (.asset name)).map v.files := by
  have hne : AssetPath.asset name ≠ tmp := fun heq => hasset ⟨name, heq.symm⟩
  have hdir : (v.apply c).dir (.asset name) = v.dir (.asset name) := by
    cases hc with
    | create ino => exact Function.update_of_ne hne _ _
    | truncate => rfl
    | write => rfl
    | remove => exact Function.update_of_ne hne _ _
    | rename name' ino =>
      have hname : AssetPath.asset name ≠ .asset (δ := δ) name' := by
        intro heq
        cases heq
        exact hrename ino rfl
      exact (Function.update_of_ne hname _ _).trans (Function.update_of_ne hne _ _)
  rw [hdir]
  cases hfile : v.dir (.asset name) with
  | none => rfl
  | some ino => exact congrArg some (hc.files fun hmine => hapart ino hmine hfile)

omit [DecidableEq ι] [DecidableEq ρ] in
/-- A change of a saver's own file leaves an asset as it is, unless it becomes that asset. -/
theorem Inv.assetContent_alter (h : s.Inv) (hasset : ¬ tmp.IsAsset) (hc : Local s.view tmp c)
    {name : η} (hrename : ∀ ino, c ≠ .rename tmp (.asset name) ino)
    (hdurable : s'.durable = s.durable) (hpending : s'.pending = s.pending ++ [c]) :
    s'.assetContent name = s.assetContent name := by
  have hview : s'.view = s.view.apply c := by
    rw [view, hdurable, hpending]
    exact Disk.applyAll_append_singleton
  rw [assetContent, assetContent, hview]
  exact hc.content hasset (fun ino hdir => h.asset_ne hasset hdir name) hrename

/-- What a system call of a saver does to the assets. -/
theorem Inv.leaves {answer : HostAnswer} (h : s.Inv) (hs : s.advance w i answer = some s') :
    (∀ name, s'.assetContent name = s.assetContent name) ∨
      ∃ name, (s'.savers i).pc = .idle ∧ (s'.savers i).last = some (name, .ok true) ∧
        ∀ name', name' ≠ name → s'.assetContent name' = s.assetContent name' := by
  have hok := h.savers i
  cases hpc : (s.savers i).pc with
  | idle =>
    simp only [AssetDirectory.advance, hpc] at hs
    cases hs
  | checking name bytes =>
    simp only [AssetDirectory.advance, hpc] at hs
    obtain rfl := Option.some.inj hs
    left
    split <;> exact fun _ => rfl
  | making name bytes =>
    simp only [AssetDirectory.advance, hpc] at hs
    obtain rfl := Option.some.inj hs
    left
    split <;> exact fun _ => rfl
  | naming name bytes =>
    simp only [AssetDirectory.advance, hpc] at hs
    obtain rfl := Option.some.inj hs
    exact Or.inl fun _ => rfl
  | landing name tmp =>
    simp only [AssetDirectory.advance, hpc] at hs
    obtain rfl := Option.some.inj hs
    exact Or.inl fun _ => rfl
  | opening name bytes tmp =>
    rw [hpc] at hok
    simp only [AssetDirectory.advance, hpc] at hs
    obtain rfl := Option.some.inj hs
    left
    intro name'
    split
    case isFalse => rfl
    case isTrue =>
      split
      case h_1 ino hdir =>
        exact h.assetContent_alter hok.2 (.truncate hdir) (fun _ heq => by cases heq) rfl rfl
      case h_2 =>
        exact h.assetContent_alter hok.2 (.create s.next) (fun _ heq => by cases heq) rfl rfl
  | writing name bytes tmp ino written =>
    rw [hpc] at hok
    simp only [AssetDirectory.advance, hpc] at hs
    obtain rfl := Option.some.inj hs
    left
    intro name'
    split
    case h_1 => rfl
    case h_2 count =>
      split
      case isFalse => rfl
      case isTrue =>
        exact h.assetContent_alter hok.2.1 (.write hok.2.2.1 _ _) (fun _ heq => by cases heq) rfl
          rfl
  | moving name bytes tmp =>
    rw [hpc] at hok
    obtain ⟨-, hasset, ino, hdir, -⟩ := hok
    simp only [AssetDirectory.advance, hpc, hdir] at hs
    obtain rfl := Option.some.inj hs
    cases answer with
    | error => exact Or.inl fun _ => rfl
    | ok count =>
      -- the only step that makes an asset: the put reports that it has written it
      refine Or.inr ⟨name, ?_, ?_, fun name' hne => ?_⟩
      · show (Function.update s.savers i _ i).pc = _
        rw [Function.update_self]
      · show (Function.update s.savers i _ i).last = _
        rw [Function.update_self]
      · refine h.assetContent_alter hasset (.rename name ino) (fun _ heq => ?_) rfl rfl
        cases heq
        exact hne rfl
  | removing name tmp outcome =>
    rw [hpc] at hok
    simp only [AssetDirectory.advance, hpc] at hs
    obtain rfl := Option.some.inj hs
    left
    intro name'
    split
    case isFalse => rfl
    case isTrue => exact h.assetContent_alter hok.1 .remove (fun _ heq => by cases heq) rfl rfl

omit [DecidableEq ρ] [DecidableEq η] [DecidableEq δ] in
/-- After a put has returned, the saver is in no call, and its outcome is known. -/
theorem finish_savers (name : η) (outcome : Except AssetSinkError Bool) :
    (s.finish i name outcome).savers i = { pc := .idle, last := some (name, outcome) } :=
  Function.update_self _ _ _

omit [DecidableEq ρ] [DecidableEq η] [DecidableEq δ] in
/-- A saver that has gone on is where it went. -/
theorem goto_pc (pc : SaverPc η δ) : ((s.goto i pc).savers i).pc = pc := by
  show (Function.update s.savers i _ i).pc = pc
  rw [Function.update_self]

/-- A put that reports success leaves an asset. -/
theorem Inv.exists_of_reports {answer : HostAnswer} {name : η} {b : Bool} (h : s.Inv)
    (hs : s.advance w i answer = some s') (hidle : (s'.savers i).pc = .idle)
    (hlast : (s'.savers i).last = some (name, .ok b)) :
    (s'.view.dir (.asset name)).isSome = true := by
  have hok := h.savers i
  cases hpc : (s.savers i).pc with
  | idle =>
    simp only [AssetDirectory.advance, hpc] at hs
    cases hs
  | checking name' bytes =>
    simp only [AssetDirectory.advance, hpc] at hs
    obtain rfl := Option.some.inj hs
    by_cases hexists : s.contains name' answer = true
    · rw [if_pos hexists, finish_savers] at hlast
      cases hlast
      rw [if_pos hexists]
      rw [contains, Bool.and_eq_true] at hexists
      exact hexists.1
    · rw [if_neg hexists, goto_pc] at hidle
      cases hidle
  | making name' bytes =>
    simp only [AssetDirectory.advance, hpc] at hs
    obtain rfl := Option.some.inj hs
    by_cases hanswer : answer.isOk = true
    · rw [if_pos hanswer, goto_pc] at hidle
      cases hidle
    · rw [if_neg hanswer, finish_savers] at hlast
      cases hlast
  | naming name' bytes =>
    simp only [AssetDirectory.advance, hpc] at hs
    obtain rfl := Option.some.inj hs
    rw [goto_pc] at hidle
    cases hidle
  | opening name' bytes tmp =>
    simp only [AssetDirectory.advance, hpc] at hs
    obtain rfl := Option.some.inj hs
    by_cases hanswer : answer.isOk = true
    · rw [if_pos hanswer] at hidle
      split at hidle <;>
        · rw [goto_pc] at hidle
          cases hidle
    · rw [if_neg hanswer, finish_savers] at hlast
      cases hlast
  | writing name' bytes tmp ino written =>
    simp only [AssetDirectory.advance, hpc] at hs
    obtain rfl := Option.some.inj hs
    split at hidle
    case h_1 =>
      rw [goto_pc] at hidle
      cases hidle
    case h_2 =>
      split at hidle <;>
        · rw [goto_pc] at hidle
          cases hidle
  | moving name' bytes tmp =>
    rw [hpc] at hok
    obtain ⟨-, -, ino, hdir, -⟩ := hok
    simp only [AssetDirectory.advance, hpc, hdir] at hs
    obtain rfl := Option.some.inj hs
    cases answer with
    | error =>
      rw [goto_pc] at hidle
      cases hidle
    | ok count =>
      rw [finish_savers] at hlast
      cases hlast
      show ((s.durable.applyAll (s.pending ++ [.rename tmp (.asset name) ino])).dir
        (.asset name)).isSome = true
      rw [Disk.applyAll_append_singleton]
      exact Option.isSome_iff_exists.mpr ⟨ino, Function.update_self _ _ _⟩
  | landing name' tmp =>
    simp only [AssetDirectory.advance, hpc] at hs
    obtain rfl := Option.some.inj hs
    rw [goto_pc] at hidle
    cases hidle
  | removing name' tmp outcome =>
    rw [hpc] at hok
    simp only [AssetDirectory.advance, hpc] at hs
    obtain rfl := Option.some.inj hs
    by_cases hanswer : answer.isOk = true
    · rw [if_pos hanswer, finish_savers] at hlast
      cases hlast
      rw [if_pos hanswer]
      show ((s.durable.applyAll (s.pending ++ [.remove tmp])).dir (.asset name)).isSome = true
      rw [Disk.applyAll_append_singleton]
      exact Local.remove.assets hok.1 (hok.2 b rfl)
    · rw [if_neg hanswer, finish_savers] at hlast
      cases hlast
      rw [if_neg hanswer]
      exact hok.2 b rfl

/-- A system call after which a saver is in no call does not take a temporary name. -/
theorem careful_of_idle {answer : HostAnswer} (hs : s.advance w i answer = some s')
    (hidle : (s'.savers i).pc = .idle) : Careful w (.step i answer) s := by
  intro name bytes hpc
  simp only [AssetDirectory.advance, hpc] at hs
  obtain rfl := Option.some.inj hs
  rw [goto_pc] at hidle
  cases hidle

/-- The invariant keeps the promises. -/
theorem Inv.neverPartial (h : s.Inv) : s.NeverPartial w where
  complete _ _ := h.complete
  reports i answer s' name b hs hidle hlast := by
    have hs' : s'.Inv := h.advance (careful_of_idle hs hidle) hs
    obtain ⟨content, hcontent⟩ := exists_assetContent (h.exists_of_reports hs hidle hlast)
    exact ⟨content, hcontent, hs'.complete hcontent⟩
  leaves i answer s' hs := h.leaves hs

end Steps

/-- A single saver. -/
def lone : Setting Unit ℕ ℕ Unit := ⟨fun _ => 0, fun _ => 0, fun _ => ()⟩

/-- An empty directory. -/
def empty : AssetDirectory ι ℕ ℕ Unit where
  durable := ⟨fun _ => none, fun _ => []⟩
  next := 0
  counter _ := 0
  puts := []

omit [DecidableEq ι] in
theorem clean_empty : (empty (ι := ι)).Clean where
  pending := rfl
  savers _ := rfl
  complete _ _ h := by cases h
  once _ _ _ h := by cases h
  dir_lt _ _ h := by cases h
  fresh _ _ := rfl

/-- Some system calls of a saver, which all succeed. -/
def steps (i : ι) (n : ℕ) : List (AssetEvent ι ℕ ℕ Unit) := List.replicate n (.step i (.ok 9))

/-- The system calls of a single saver are careful. -/
theorem careful_lone (answer : HostAnswer) (s : AssetDirectory Unit ℕ ℕ Unit) :
    Careful lone (.step () answer) s :=
  fun _ _ _ j hj => absurd (Subsingleton.elim j ()) hj

end AssetDirectory

end ArbitraryComposer
