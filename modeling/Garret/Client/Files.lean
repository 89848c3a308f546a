import Garret.Common
import Garret.Lib.Register
import Garret.Lib.Tasks

/-!
# Files replaced whole

Model of `write_atomic` (`crates/garret-client/src/files.rs`): the token, the config, the Watcher's
Cursor, its failed list and `nix.conf`. Any number of processes write the same path at a time; each
can be killed between any two system calls, and the machine can lose power.

* A directory maps names to inodes. A process that has opened an inode keeps writing to it, whatever
  its name refers to by then; `create_new` refuses a name that is there (`Fs.createNew`).
* After a power loss the directory is as it was after one of the changes since the last one
  (`Fs.past`), and an inode that was not synced holds anything (`Outside.garbage`).
* What is at the path itself is modelled, not what a symbolic link there points at. Creating the
  parent directories is a step that may fail.
* Live processes have different pids; the pid of a process that is gone may come again (`Pids`).

The abstract level is `Lib.Register`: `simulates` is the refinement.
-/

namespace Garret.Files

open Garret.Lib

/-- What a name refers to. -/
inductive Entry where
  | file (ino : ℕ)
  | link (target : String)
  | dir
  deriving DecidableEq, Repr

/-- A file's bytes and permission bits, and whether they are all on the disk. -/
structure Inode where
  data : Bytes
  mode : ℕ
  synced : Bool
  deriving DecidableEq, Repr

/-- A directory. -/
abbrev Dir := Table String Entry

/-- The file system. -/
structure Fs where
  dir : Dir
  /-- The directories a power loss may bring back. -/
  past : List Dir
  inodes : List Inode

/-- What is at a path. -/
inductive Content where
  | file (data : Bytes) (mode : ℕ)
  | link (target : String)
  | dir
  deriving DecidableEq, Repr

namespace Fs

/-- What `d` has under `name`. -/
def at? (fs : Fs) (d : Dir) (name : String) : Option Content :=
  match d.lookup name with
  | none => none
  | some (.file ino) => fs.inodes[ino]?.map fun n => .file n.data n.mode
  | some (.link target) => some (.link target)
  | some .dir => some .dir

/-- The directory is changed. -/
def setDir (fs : Fs) (d : Dir) : Fs := { fs with dir := d, past := fs.dir :: fs.past }

/-- `remove_optional`: an absent name is fine, a directory is not. -/
def removeOptional (fs : Fs) (name : String) : Option Fs :=
  match fs.dir.lookup name with
  | none => some fs
  | some .dir => none
  | some _ => some (fs.setDir (fs.dir.erase name))

/-- `OpenOptions` with `create_new`: the new inode. -/
def createNew (fs : Fs) (name : String) (mode : ℕ) : Option (Fs × ℕ) :=
  match fs.dir.lookup name with
  | none =>
    some ({ fs.setDir (fs.dir.insert name (.file fs.inodes.length)) with
      inodes := fs.inodes ++ [⟨[], mode, false⟩] }, fs.inodes.length)
  | some _ => none

/-- `write` to an open file. -/
def append (fs : Fs) (ino : ℕ) (bytes : Bytes) : Fs :=
  { fs with
    inodes := fs.inodes.modify ino fun n => { n with data := n.data ++ bytes, synced := false } }

/-- `sync_all`. -/
def sync (fs : Fs) (ino : ℕ) : Fs :=
  { fs with inodes := fs.inodes.modify ino fun n => { n with synced := true } }

/-- `rename`: over a file or a link, not over a directory. -/
def rename (fs : Fs) (a b : String) : Option Fs :=
  match fs.dir.lookup a, fs.dir.lookup b with
  | none, _ => none
  | some _, some .dir => none
  | some e, _ => some (fs.setDir ((fs.dir.erase a).insert b e))

/-- What is left after a power loss. -/
def lose (fs : Fs) (version : ℕ) (garbage : ℕ → Bytes) : Fs where
  dir := (fs.dir :: fs.past).getD version fs.dir
  past := []
  inodes := fs.inodes.mapIdx fun i n =>
    if n.synced then n else { n with data := garbage i, synced := true }

end Fs

/-- The sibling of a process. -/
def tmp (path : String) (pid : ℕ) : String := path ++ ("." ++ toString pid ++ ".tmp")

/-- How a write ended. -/
inductive Result where
  | ok
  | error
  | killed
  deriving DecidableEq, Repr

/-- Where a write stands. -/
inductive Stage where
  | mkdir
  | remove
  | create
  | write (ino : ℕ) (rest : Bytes)
  | sync (ino : ℕ)
  | rename (ino : ℕ)
  /-- A step failed; the sibling goes. -/
  | cleanup
  | ended (r : Result)
  deriving DecidableEq, Repr

/-- A `write_atomic` under way. -/
structure Task where
  pid : ℕ
  contents : Bytes
  mode : ℕ
  stage : Stage
  deriving DecidableEq, Repr

/-- What the outside decides in one step. -/
structure Outside where
  /-- The system call succeeds, if it can. -/
  io : Bool
  /-- How much of what is left `write` takes. -/
  taken : ℕ
  /-- The process is killed instead. -/
  killed : Bool
  version : ℕ
  garbage : ℕ → Bytes

/-- The permission bits a file is created with, less the umask. -/
def created (umask mode : ℕ) : ℕ := mode &&& (0o777 ^^^ umask)

/-- One system call of `write_atomic`. -/
def Task.step (path : String) (umask : ℕ) (fs : Fs) (o : Outside) (t : Task) :
    Option (Fs × Task) :=
  let goes (fs : Fs) (stage : Stage) := some (fs, { t with stage := stage })
  match t.stage with
  | .mkdir => if o.io then goes fs .remove else goes fs .cleanup
  | .remove =>
    match if o.io then fs.removeOptional (tmp path t.pid) else none with
    | some fs => goes fs .create
    | none => goes fs .cleanup
  | .create =>
    match if o.io then fs.createNew (tmp path t.pid) (created umask t.mode) else none with
    | some (fs, ino) => goes fs (.write ino t.contents)
    | none => goes fs .cleanup
  | .write ino rest =>
    if rest = [] then goes fs (.sync ino)
    else
      -- a `write` that takes nothing is an error
      if o.io && decide (0 < o.taken) then
        goes (fs.append ino (rest.take o.taken)) (.write ino (rest.drop o.taken))
      else goes fs .cleanup
  | .sync ino => if o.io then goes (fs.sync ino) (.rename ino) else goes fs .cleanup
  | .rename _ =>
    match if o.io then fs.rename (tmp path t.pid) path else none with
    | some fs => goes fs (.ended .ok)
    | none => goes fs .cleanup
  | .cleanup =>
    match if o.io then fs.removeOptional (tmp path t.pid) else none with
    | some fs => goes fs (.ended .error)
    | none => goes fs (.ended .error)
  | .ended _ => none

/-- A process is killed, if it is still there. -/
def Task.kill (fs : Fs) (t : Task) : Option (Fs × Task) :=
  match t.stage with
  | .ended _ => none
  | _ => some (fs, { t with stage := .ended .killed })

/-- Those who write `path`. A crash is a power loss. -/
def program (path : String) (umask : ℕ) : Program Fs Task Outside Empty where
  initial t := decide (t.stage = .mkdir)
  run _ fs o t := if o.killed then t.kill fs else t.step path umask fs o
  outside _ e := e.elim
  restart fs o := fs.lose o.version o.garbage

/-- The states of the system. -/
abbrev State := Tasks Fs Task

/-- Its actions. -/
abbrev Act := Tasks.Act Task Outside Empty

/-- The write is not over. -/
def Stage.live : Stage → Bool
  | ended _ => false
  | _ => true

/-- Live processes have different pids, and what is written is of `W`, with the bits it is given. -/
def Pids (umask : ℕ) (W : Set (Option Content)) (s : State) : Act → Prop
  | .spawn _ t => (∀ j u, s.task? j = some u → u.stage.live = true → u.pid ≠ t.pid) ∧
    some (.file t.contents (created umask t.mode)) ∈ W
  | _ => True

/-! ## What a write does -/

/-- The file a write has open. -/
def Stage.ino? : Stage → Option ℕ
  | write ino _ => some ino
  | sync ino => some ino
  | rename ino => some ino
  | _ => none

/-- What is still to be written. -/
def Stage.rest : Stage → Bytes
  | write _ rest => rest
  | _ => []

theorem tmp_ne (path : String) (pid : ℕ) : tmp path pid ≠ path := by
  intro h
  have hlen := congrArg String.length h
  simp [tmp, String.length_append] at hlen

theorem tmp_injective {path : String} {a b : ℕ} (h : tmp path a = tmp path b) : a = b := by
  have hrepr : toString a = toString b := by simpa [tmp] using h
  have hlist : Nat.toDigits 10 a = Nat.toDigits 10 b := by
    have := congrArg String.toList hrepr
    simpa [Nat.toString_eq_repr, Nat.repr] using this
  have ha := Nat.ofDigitChars_toDigits (b := 10) (n := a) (by decide) (by decide)
  have hb := Nat.ofDigitChars_toDigits (b := 10) (n := b) (by decide) (by decide)
  rw [← ha, ← hb, hlist]

/-- The steps of a write, by what they do to the file system. -/
inductive Task.Stepped (path : String) (umask : ℕ) (fs : Fs) (t : Task) : Fs → Stage → Prop
  /-- Nothing is done to the file system; what is open stays so, or the write gives up. -/
  | moves {stage : Stage} (hl : t.stage.live = true) (he : stage ≠ .ended .ok)
    (hi : stage.ino? = none ∨ t.stage.ino? = stage.ino? ∧ t.stage.rest = stage.rest)
    (hs : ∀ ino, stage ≠ .rename ino) : Stepped path umask fs t fs stage
  | unlinks {stage : Stage} (hl : t.stage.live = true) (he : stage ≠ .ended .ok)
    (hi : stage.ino? = none) :
    Stepped path umask fs t (fs.setDir (fs.dir.erase (tmp path t.pid))) stage
  | creates (hl : t.stage.live = true) (hn : fs.dir.lookup (tmp path t.pid) = none) :
    Stepped path umask fs t
      { fs.setDir (fs.dir.insert (tmp path t.pid) (.file fs.inodes.length)) with
        inodes := fs.inodes ++ [⟨[], created umask t.mode, false⟩] }
      (.write fs.inodes.length t.contents)
  | appends {ino n : ℕ} {rest : Bytes} (hs : t.stage = .write ino rest) :
    Stepped path umask fs t (fs.append ino (rest.take n)) (.write ino (rest.drop n))
  | syncs {ino : ℕ} (hs : t.stage = .sync ino) :
    Stepped path umask fs t (fs.sync ino) (.rename ino)
  | renames {ino : ℕ} {e : Entry} (hs : t.stage = .rename ino)
    (he : fs.dir.lookup (tmp path t.pid) = some e) :
    Stepped path umask fs t (fs.setDir ((fs.dir.erase (tmp path t.pid)).insert path e))
      (.ended .ok)

section
variable {path : String} {umask : ℕ} {fs fs' : Fs} {o : Outside} {t t' : Task}

theorem removeOptional_cases {name : String} (h : fs.removeOptional name = some fs') :
    fs' = fs ∨ fs' = fs.setDir (fs.dir.erase name) := by
  unfold Fs.removeOptional at h
  split at h
  · exact Or.inl (Option.some.inj h).symm
  · exact absurd h (by simp)
  · exact Or.inr (Option.some.inj h).symm

/-- A failed step leaves the file system as it is. -/
theorem Task.Stepped.fails (hl : t.stage.live = true) : Stepped path umask fs t fs .cleanup :=
  .moves hl (by simp) (Or.inl rfl) (by simp)

theorem Task.step_cases (h : t.step path umask fs o = some (fs', t')) :
    t' = { t with stage := t'.stage } ∧ Stepped path umask fs t fs' t'.stage := by
  obtain ⟨pid, contents, mode, stage⟩ := t
  cases stage with
  | mkdir =>
    simp only [step] at h
    split at h
    all_goals obtain ⟨rfl, rfl⟩ := Prod.mk.inj (Option.some.inj h)
    · exact ⟨rfl, .moves rfl (by simp) (Or.inl rfl) (by simp)⟩
    · exact ⟨rfl, .fails rfl⟩
  | remove =>
    simp only [step] at h
    split at h
    all_goals obtain ⟨rfl, rfl⟩ := Prod.mk.inj (Option.some.inj h)
    · rename_i fs₁ hrem
      split at hrem
      · rcases removeOptional_cases hrem with rfl | rfl
        · exact ⟨rfl, .moves rfl (by simp) (Or.inl rfl) (by simp)⟩
        · exact ⟨rfl, .unlinks rfl (by simp) rfl⟩
      · exact absurd hrem (by simp)
    · exact ⟨rfl, .fails rfl⟩
  | create =>
    simp only [step] at h
    split at h
    all_goals obtain ⟨rfl, rfl⟩ := Prod.mk.inj (Option.some.inj h)
    · rename_i fs₁ ino hnew
      split at hnew
      · unfold Fs.createNew at hnew
        split at hnew
        · rename_i hnone
          obtain ⟨rfl, rfl⟩ := Prod.mk.inj (Option.some.inj hnew)
          exact ⟨rfl, .creates rfl hnone⟩
        · exact absurd hnew (by simp)
      · exact absurd hnew (by simp)
    · exact ⟨rfl, .fails rfl⟩
  | write ino rest =>
    simp only [step] at h
    split at h
    · rename_i hrest
      obtain ⟨rfl, rfl⟩ := Prod.mk.inj (Option.some.inj h)
      exact ⟨rfl, .moves rfl (by simp) (Or.inr ⟨rfl, hrest⟩) (by simp)⟩
    · split at h
      all_goals obtain ⟨rfl, rfl⟩ := Prod.mk.inj (Option.some.inj h)
      · exact ⟨rfl, .appends rfl⟩
      · exact ⟨rfl, .fails rfl⟩
  | sync ino =>
    simp only [step] at h
    split at h
    all_goals obtain ⟨rfl, rfl⟩ := Prod.mk.inj (Option.some.inj h)
    · exact ⟨rfl, .syncs rfl⟩
    · exact ⟨rfl, .fails rfl⟩
  | rename ino =>
    simp only [step] at h
    split at h
    all_goals obtain ⟨rfl, rfl⟩ := Prod.mk.inj (Option.some.inj h)
    · rename_i fs₁ hren
      split at hren
      · unfold Fs.rename at hren
        split at hren
        · exact absurd hren (by simp)
        · exact absurd hren (by simp)
        · rename_i e he hdir
          obtain rfl := Option.some.inj hren
          exact ⟨rfl, .renames rfl he⟩
      · exact absurd hren (by simp)
    · exact ⟨rfl, .fails rfl⟩
  | cleanup =>
    simp only [step] at h
    split at h
    all_goals obtain ⟨rfl, rfl⟩ := Prod.mk.inj (Option.some.inj h)
    · rename_i fs₁ hrem
      split at hrem
      · rcases removeOptional_cases hrem with rfl | rfl
        · exact ⟨rfl, .moves rfl (by simp) (Or.inl rfl) (by simp)⟩
        · exact ⟨rfl, .unlinks rfl (by simp) rfl⟩
      · exact absurd hrem (by simp)
    · exact ⟨rfl, .moves rfl (by simp) (Or.inl rfl) (by simp)⟩
  | ended r => exact absurd h (by simp [step])

theorem Task.kill_cases (h : t.kill fs = some (fs', t')) :
    t' = { t with stage := t'.stage } ∧ Stepped path umask fs t fs' t'.stage := by
  unfold kill at h
  split at h
  · exact absurd h (by simp)
  · rename_i hlive
    obtain ⟨rfl, rfl⟩ := Prod.mk.inj (Option.some.inj h)
    refine ⟨rfl, .moves ?_ (by simp) (Or.inl rfl) (by simp)⟩
    cases hs : t.stage with
    | ended r => exact absurd hs (hlive r)
    | _ => rfl

/-- A step of a write, or its end by a kill. -/
theorem run_cases {me : ℕ} (h : (program path umask).run me fs o t = some (fs', t')) :
    t' = { t with stage := t'.stage } ∧ Task.Stepped path umask fs t fs' t'.stage := by
  simp only [program] at h
  split at h
  · exact Task.kill_cases h
  · exact Task.step_cases h

theorem live_of_ino {stage : Stage} {ino : ℕ} (h : stage.ino? = some ino) : stage.live = true := by
  cases stage with
  | ended r => exact absurd h (by simp [Stage.ino?])
  | _ => rfl

/-- Only a live write moves. -/
theorem Task.Stepped.live {stage : Stage} (h : Stepped path umask fs t fs' stage) :
    t.stage.live = true := by
  cases h with
  | moves hl => exact hl
  | unlinks hl => exact hl
  | creates hl => exact hl
  | appends hs => rw [hs]; rfl
  | syncs hs => rw [hs]; rfl
  | renames hs => rw [hs]; rfl

end

/-! ## What every run keeps -/

/-- What is at the path in any directory is on the disk. -/
def Fs.Settled (path : String) (fs : Fs) : Prop :=
  ∀ d ∈ fs.dir :: fs.past, ∀ ino, d.lookup path = some (.file ino) →
    ∃ n, fs.inodes[ino]? = some n ∧ n.synced = true

/-- A write and the file it has open: under its own name, with its bits and what is written so far,
and nowhere at the path. -/
structure Task.Opens (path : String) (umask : ℕ) (fs : Fs) (t : Task) (ino : ℕ) : Prop where
  name : fs.dir.lookup (tmp path t.pid) = some (.file ino)
  inode : ∃ n, fs.inodes[ino]? = some n ∧ n.mode = created umask t.mode ∧
    n.data ++ t.stage.rest = t.contents ∧ (t.stage = .rename ino → n.synced = true)
  off : ∀ d ∈ fs.dir :: fs.past, d.lookup path ≠ some (.file ino)

/-- A write and the file system. -/
def Task.Well (path : String) (umask : ℕ) (fs : Fs) (t : Task) : Prop :=
  ∀ ino, t.stage.ino? = some ino → t.Opens path umask fs ino

/-- Two writes: live ones have pids of their own, and files of their own. -/
structure Task.Apart (t u : Task) : Prop where
  pid : t.stage.live = true → u.stage.live = true → t.pid ≠ u.pid
  ino : ∀ ino, t.stage.ino? = some ino → u.stage.ino? ≠ some ino

/-- The file system as far as the path goes: what is there, and what a power loss may leave. -/
structure Fs.SameAt (path : String) (fs fs' : Fs) : Prop where
  value : fs'.at? fs'.dir path = fs.at? fs.dir path
  kept : {c | ∃ d ∈ fs'.dir :: fs'.past, fs'.at? d path = c} =
    {c | ∃ d ∈ fs.dir :: fs.past, fs.at? d path = c}

section
variable {path : String} {umask : ℕ} {fs fs' : Fs} {t t' u : Task}

theorem at?_congr {d d' : Dir} (hd : d'.lookup path = d.lookup path)
    (hi : ∀ ino, d.lookup path = some (.file ino) → fs'.inodes[ino]? = fs.inodes[ino]?) :
    fs'.at? d' path = fs.at? d path := by
  unfold Fs.at?
  rw [hd]
  cases h : d.lookup path with
  | none => rfl
  | some e =>
    cases e with
    | file ino => simp only [hi ino h]
    | _ => rfl

/-- A change that leaves the path's own entry and inodes. -/
theorem Fs.SameAt.setDir {d : Dir} (hd : d.lookup path = fs.dir.lookup path)
    (hdir : fs'.dir = d) (hpast : fs'.past = fs.dir :: fs.past)
    (hi : ∀ d ∈ fs.dir :: fs.past, ∀ ino, d.lookup path = some (.file ino) →
      fs'.inodes[ino]? = fs.inodes[ino]?) : fs.SameAt path fs' := by
  have hsame : ∀ d ∈ fs.dir :: fs.past, fs'.at? d path = fs.at? d path := fun d hd =>
    at?_congr rfl (hi d hd)
  have hnew : fs'.at? d path = fs.at? fs.dir path := at?_congr hd (hi _ List.mem_cons_self)
  refine ⟨by rw [hdir, hnew], Set.ext fun c => ⟨?_, ?_⟩⟩
  · rintro ⟨x, hx, rfl⟩
    rw [hdir, hpast] at hx
    rcases List.mem_cons.mp hx with rfl | hx
    · exact ⟨fs.dir, List.mem_cons_self, hnew.symm⟩
    · exact ⟨x, hx, (hsame x hx).symm⟩
  · rintro ⟨x, hx, rfl⟩
    exact ⟨x, by rw [hpast]; exact List.mem_cons_of_mem _ hx, hsame x hx⟩

theorem Fs.SameAt.inodes (hdir : fs'.dir = fs.dir) (hpast : fs'.past = fs.past)
    (hi : ∀ d ∈ fs.dir :: fs.past, ∀ ino, d.lookup path = some (.file ino) →
      fs'.inodes[ino]? = fs.inodes[ino]?) : fs.SameAt path fs' := by
  have hsame : ∀ d ∈ fs.dir :: fs.past, fs'.at? d path = fs.at? d path := fun d hd =>
    at?_congr rfl (hi d hd)
  refine ⟨by rw [hdir, hsame _ List.mem_cons_self], Set.ext fun c => ⟨?_, ?_⟩⟩
  · rintro ⟨x, hx, rfl⟩
    rw [hdir, hpast] at hx
    exact ⟨x, hx, (hsame x hx).symm⟩
  · rintro ⟨x, hx, rfl⟩
    exact ⟨x, by rw [hdir, hpast]; exact hx, hsame x hx⟩

theorem lookup_erase_tmp (d : Dir) (pid : ℕ) :
    (d.erase (tmp path pid)).lookup path = d.lookup path := by
  rw [Table.lookup_erase_eq, if_neg (tmp_ne path pid).symm]

theorem lookup_insert_tmp (d : Dir) (pid : ℕ) (e : Entry) :
    (d.insert (tmp path pid) e).lookup path = d.lookup path := by
  rw [Table.lookup_insert_eq, if_neg (tmp_ne path pid).symm]

/-- What is at the path is not the file a write has open. -/
theorem Task.Opens.ne {ino k : ℕ} (h : t.Opens path umask fs ino) {d : Dir}
    (hd : d ∈ fs.dir :: fs.past) (hk : d.lookup path = some (.file k)) : k ≠ ino := by
  rintro rfl
  exact h.off d hd hk

theorem getElem?_append_new {n : Inode} {ino : ℕ} {m : Inode} (h : fs.inodes[ino]? = some m) :
    (fs.inodes ++ [n])[ino]? = fs.inodes[ino]? := by
  rw [List.getElem?_append_left]
  exact (List.getElem?_eq_some_iff.mp h).1

/-- **A step of a write changes the path only in its rename**, which puts the whole of it there. -/
theorem Task.Stepped.value {stage : Stage} (hw : t.Well path umask fs) (hset : fs.Settled path)
    (h : Stepped path umask fs t fs' stage) :
    (fs.SameAt path fs' ∧ stage ≠ .ended .ok) ∨
      stage = .ended .ok ∧ fs'.past = fs.dir :: fs.past ∧ fs'.inodes = fs.inodes ∧
        fs'.at? fs'.dir path = some (.file t.contents (created umask t.mode)) := by
  cases h with
  | moves hl he => exact Or.inl ⟨.inodes rfl rfl fun _ _ _ _ => rfl, he⟩
  | unlinks hl he => exact Or.inl ⟨.setDir (lookup_erase_tmp _ _) rfl rfl fun _ _ _ _ => rfl, he⟩
  | creates hl hn =>
    refine Or.inl ⟨.setDir (lookup_insert_tmp _ _ _) rfl rfl fun d hd ino hino => ?_, by simp⟩
    obtain ⟨n, hn, -⟩ := hset d hd ino hino
    exact getElem?_append_new hn
  | @appends ino n rest hs =>
    have ho := hw ino (by rw [hs]; rfl)
    refine Or.inl ⟨.inodes rfl rfl fun d hd k hk => ?_, by simp⟩
    exact List.getElem?_modify_ne _ _ (ho.ne hd hk).symm
  | @syncs ino hs =>
    have ho := hw ino (by rw [hs]; rfl)
    refine Or.inl ⟨.inodes rfl rfl fun d hd k hk => ?_, by simp⟩
    exact List.getElem?_modify_ne _ _ (ho.ne hd hk).symm
  | @renames ino e hs he =>
    have ho := hw ino (by rw [hs]; rfl)
    obtain ⟨n, hn, hmode, hdata, -⟩ := ho.inode
    obtain rfl := Option.some.inj (he.symm.trans ho.name)
    refine Or.inr ⟨rfl, rfl, rfl, ?_⟩
    have hdata : n.data = t.contents := by simpa [hs, Stage.rest] using hdata
    simp only [Fs.at?, Fs.setDir, Table.lookup_insert_eq, if_true, hn, Option.map_some, hdata,
      hmode]

/-- Every directory a step leaves has, at the path, what one had before, or the file just synced. -/
theorem Task.Stepped.dirs {stage : Stage} (h : Stepped path umask fs t fs' stage) {d : Dir}
    (hd : d ∈ fs'.dir :: fs'.past) :
    (∃ x ∈ fs.dir :: fs.past, d.lookup path = x.lookup path) ∨
      ∃ ino e, t.stage = .rename ino ∧ fs.dir.lookup (tmp path t.pid) = some e ∧
        d.lookup path = some e := by
  have hset : ∀ {n : Dir}, n.lookup path = fs.dir.lookup path → d ∈ n :: fs.dir :: fs.past →
      ∃ x ∈ fs.dir :: fs.past, d.lookup path = x.lookup path := by
    intro n hn hd
    rcases List.mem_cons.mp hd with rfl | hd
    · exact ⟨fs.dir, List.mem_cons_self, hn⟩
    · exact ⟨d, hd, rfl⟩
  cases h with
  | moves => exact Or.inl ⟨d, hd, rfl⟩
  | unlinks => exact Or.inl (hset (lookup_erase_tmp _ _) hd)
  | creates => exact Or.inl (hset (lookup_insert_tmp _ _ _) hd)
  | appends => exact Or.inl ⟨d, hd, rfl⟩
  | syncs => exact Or.inl ⟨d, hd, rfl⟩
  | @renames ino e hs he =>
    rcases List.mem_cons.mp hd with rfl | hd
    · exact Or.inr ⟨ino, e, hs, he, by rw [Fs.setDir, Table.lookup_insert_eq, if_pos rfl]⟩
    · exact Or.inl ⟨d, hd, rfl⟩

/-- An inode a step changes is the one the write has open, or new. -/
theorem Task.Stepped.inodes {stage : Stage} (h : Stepped path umask fs t fs' stage) {k : ℕ}
    {n : Inode} (hk : fs.inodes[k]? = some n) :
    fs'.inodes[k]? = some n ∨ t.stage.ino? = some k ∧ ∃ n', fs'.inodes[k]? = some n' := by
  have hmod : ∀ {ino : ℕ} (f : Inode → Inode), t.stage.ino? = some ino →
      (fs.inodes.modify ino f)[k]? = some n ∨
        t.stage.ino? = some k ∧ ∃ n', (fs.inodes.modify ino f)[k]? = some n' := by
    intro ino f hino
    by_cases hik : ino = k
    · subst hik
      exact Or.inr ⟨hino, f n, by rw [List.getElem?_modify_eq, hk]; rfl⟩
    · exact Or.inl ((List.getElem?_modify_ne _ _ hik).trans hk)
  cases h with
  | moves => exact Or.inl hk
  | unlinks => exact Or.inl hk
  | creates => exact Or.inl ((getElem?_append_new hk).trans hk)
  | appends hs => exact hmod _ (by rw [hs]; rfl)
  | syncs hs => exact hmod _ (by rw [hs]; rfl)
  | renames => exact Or.inl hk

theorem settled_step {stage : Stage} (hw : t.Well path umask fs) (hset : fs.Settled path)
    (h : Task.Stepped path umask fs t fs' stage) : fs'.Settled path := by
  intro d hd k hk
  -- what is at the path is not what is being written
  rcases h.dirs hd with ⟨x, hx, heq⟩ | ⟨ino, e, hs, he, heq⟩
  · rw [heq] at hk
    obtain ⟨n, hn, hsync⟩ := hset x hx k hk
    rcases h.inodes hn with hn | ⟨hino, -⟩
    · exact ⟨n, hn, hsync⟩
    · exact absurd rfl ((hw k hino).ne hx hk)
  · obtain rfl := Option.some.inj (heq.symm.trans hk)
    have ho := hw ino (by rw [hs]; rfl)
    obtain rfl := Entry.file.inj (Option.some.inj (ho.name.symm.trans he))
    obtain ⟨n, hn, -, -, hsync⟩ := ho.inode
    cases h with
    | renames => exact ⟨n, hn, hsync hs⟩
    | moves => exact ⟨n, hn, hsync hs⟩
    | unlinks => exact ⟨n, hn, hsync hs⟩
    | creates => exact ⟨n, (getElem?_append_new hn).trans hn, hsync hs⟩
    | appends hs' => exact absurd (hs.symm.trans hs') (by simp)
    | syncs hs' => exact absurd (hs.symm.trans hs') (by simp)

/-- **A write has its own file open, under its own name**, until it renames it. -/
theorem Task.Well.step (hw : t.Well path umask fs) (hset : fs.Settled path)
    (ht : t' = { t with stage := t'.stage }) (h : Stepped path umask fs t fs' t'.stage) :
    t'.Well path umask fs' := by
  obtain ⟨pid, contents, mode, stage'⟩ := t'
  obtain ⟨rfl, rfl, rfl, -⟩ := Task.mk.inj ht
  intro ino hino
  cases h with
  | moves hl he hi hs =>
    rcases hi with hnone | ⟨hsame, hrest⟩
    · exact absurd (hnone.symm.trans hino) (by simp)
    · have ho := hw ino (hsame.trans hino)
      obtain ⟨n, hn, hmode, hdata, -⟩ := ho.inode
      exact ⟨ho.name, ⟨n, hn, hmode, hrest ▸ hdata, fun h => absurd h (hs ino)⟩, ho.off⟩
  | unlinks hl he hi => exact absurd (hi.symm.trans hino) (by simp)
  | creates hl hn =>
    obtain rfl := Option.some.inj hino
    refine ⟨by rw [Fs.setDir, Table.lookup_insert_eq, if_pos rfl],
      ⟨_, List.getElem?_concat_length, rfl, rfl, by simp⟩, fun d hd hk => ?_⟩
    have hout : ∀ x ∈ fs.dir :: fs.past, x.lookup path ≠ some (.file fs.inodes.length) := by
      intro x hx hk
      obtain ⟨n, hn, -⟩ := hset x hx _ hk
      exact absurd (List.getElem?_eq_some_iff.mp hn).1 (lt_irrefl _)
    rcases List.mem_cons.mp hd with rfl | hd
    · exact hout fs.dir List.mem_cons_self ((lookup_insert_tmp _ _ _).symm.trans hk)
    · exact hout d hd hk
  | @appends k n rest hs =>
    obtain rfl := Option.some.inj hino
    have ho := hw k (by rw [hs]; rfl)
    obtain ⟨x, hx, hmode, hdata, -⟩ := ho.inode
    refine ⟨ho.name, ⟨{ x with data := x.data ++ rest.take n, synced := false }, ?_, hmode, ?_,
      by simp⟩, ho.off⟩
    · rw [Fs.append, List.getElem?_modify_eq, hx]
      rfl
    · rw [hs] at hdata
      simp only [Stage.rest, List.append_assoc, List.take_append_drop]
      exact hdata
  | @syncs k hs =>
    obtain rfl := Option.some.inj hino
    have ho := hw k (by rw [hs]; rfl)
    obtain ⟨x, hx, hmode, hdata, -⟩ := ho.inode
    refine ⟨ho.name, ⟨{ x with synced := true }, ?_, hmode, ?_, fun _ => rfl⟩, ho.off⟩
    · rw [Fs.sync, List.getElem?_modify_eq, hx]
      rfl
    · rw [hs] at hdata
      exact hdata
  | renames => exact absurd hino (by simp [Stage.ino?])

/-- Another write is left alone. -/
theorem Task.Well.other (hu : u.Well path umask fs) (hw : t.Well path umask fs)
    (htu : t.Apart u) {stage : Stage} (h : Stepped path umask fs t fs' stage) :
    u.Well path umask fs' := by
  intro ino hino
  have ho := hu ino hino
  have hpid : tmp path u.pid ≠ tmp path t.pid := fun heq =>
    htu.pid h.live (live_of_ino hino) (tmp_injective heq).symm
  refine ⟨?_, ?_, fun d hd hk => ?_⟩
  · have hname := ho.name
    cases h with
    | unlinks => rw [Fs.setDir, Table.lookup_erase_eq, if_neg hpid, hname]
    | creates => rw [Fs.setDir, Table.lookup_insert_eq, if_neg hpid, hname]
    | renames =>
      rw [Fs.setDir, Table.lookup_insert_eq, if_neg (tmp_ne path u.pid), Table.lookup_erase_eq,
        if_neg hpid, hname]
    | _ => exact hname
  · obtain ⟨n, hn, hrest⟩ := ho.inode
    rcases h.inodes hn with hn | ⟨hino', -⟩
    · exact ⟨n, hn, hrest⟩
    · exact absurd hino (htu.ino ino hino')
  · rcases h.dirs hd with ⟨x, hx, heq⟩ | ⟨k, e, hs, he, heq⟩
    · exact ho.off x hx (heq ▸ hk)
    · have hopen := hw k (by rw [hs]; rfl)
      obtain rfl := Option.some.inj (heq.symm.trans hk)
      obtain rfl := Entry.file.inj (Option.some.inj (hopen.name.symm.trans he))
      exact htu.ino k (by rw [hs]; rfl) hino

/-- What a write has open after its step it had open before, or is new. -/
theorem Task.Stepped.ino {stage : Stage} (h : Stepped path umask fs t fs' stage) {ino : ℕ}
    (hi : stage.ino? = some ino) : t.stage.ino? = some ino ∨ ino = fs.inodes.length := by
  cases h with
  | moves _ _ hi' =>
    rcases hi' with hnone | ⟨hsame, -⟩
    · exact absurd (hnone.symm.trans hi) (by simp)
    · exact Or.inl (hsame.trans hi)
  | unlinks _ _ hnone => exact absurd (hnone.symm.trans hi) (by simp)
  | creates => exact Or.inr (Option.some.inj hi).symm
  | appends hs => exact Or.inl (by rw [hs]; exact hi)
  | syncs hs => exact Or.inl (by rw [hs]; exact hi)
  | renames => exact absurd hi (by simp [Stage.ino?])

theorem Task.Apart.step (htu : t.Apart u) (hut : u.Apart t) (hu : u.Well path umask fs)
    (ht : t' = { t with stage := t'.stage }) (h : Stepped path umask fs t fs' t'.stage) :
    t'.Apart u ∧ u.Apart t' := by
  have hpid : t'.pid = t.pid := by rw [ht]
  have hino : ∀ ino, t'.stage.ino? = some ino → u.stage.ino? ≠ some ino := by
    intro ino hi hui
    rcases h.ino hi with hold | rfl
    · exact htu.ino ino hold hui
    · obtain ⟨n, hn, -⟩ := (hu _ hui).inode
      exact absurd (List.getElem?_eq_some_iff.mp hn).1 (lt_irrefl _)
  exact ⟨⟨fun _ hl => hpid ▸ htu.pid h.live hl, hino⟩,
    ⟨fun hl _ => hpid ▸ hut.pid hl h.live, fun ino hui hi => hino ino hi hui⟩⟩

end

/-- **What every step keeps.** -/
theorem keeps (path : String) (umask : ℕ) (W : Set (Option Content)) :
    (program path umask).Keeps (Pids umask W) (fun s => s.shared.Settled path)
      (fun _ => Task.Well path umask) Task.Apart where
  spawn {s i t} _ hI _ hi := by
    have hs : t.stage = .mkdir := of_decide_eq_true hi
    exact ⟨hI.whole, fun ino hino => absurd hino (by simp [hs, Stage.ino?])⟩
  spawnPair {s i t j u} hok _ hi hu := by
    have hs : t.stage = .mkdir := of_decide_eq_true hi
    exact ⟨⟨fun _ hl => (hok.1 j u hu hl).symm, by simp [hs, Stage.ino?]⟩,
      ⟨fun hl _ => hok.1 j u hu hl, by simp [hs, Stage.ino?]⟩⟩
  self _ hI ht h :=
    have ⟨hcall, hs⟩ := run_cases h
    ⟨settled_step (hI.task _ _ ht) hI.whole hs, (hI.task _ _ ht).step hI.whole hcall hs⟩
  other _ hI ht h hji hu :=
    have ⟨hcall, hs⟩ := run_cases h
    have htu := hI.pair _ _ _ _ (Ne.symm hji) ht hu
    ⟨(hI.task _ _ hu).other (hI.task _ _ ht) htu hs,
      htu.step (hI.pair _ _ _ _ hji hu ht) (hI.task _ _ hu) hcall hs⟩
  outside {s e} _ _ _ := e.elim
  restart {s o} _ hI := by
    intro d hd ino hino
    have hmem : d ∈ s.shared.dir :: s.shared.past := by
      rw [List.mem_singleton.mp hd]
      simp only [program, Fs.lose, Tasks.shared_boot, List.getD_eq_getElem?_getD]
      cases hv : (s.shared.dir :: s.shared.past)[o.version]? with
      | none => exact List.mem_cons_self
      | some x => exact List.mem_of_getElem? hv
    obtain ⟨n, hn, hsync⟩ := hI.whole d hmem ino hino
    refine ⟨n, ?_, hsync⟩
    simp only [program, Fs.lose, Tasks.shared_boot, List.getElem?_mapIdx, hn, Option.map_some,
      hsync, if_true]

/-! ## The file as a register -/

/-- Where a write stands, to one who does not look inside. -/
def Task.writing (umask : ℕ) (t : Task) : Writing (Option Content) :=
  match t.stage with
  | .ended .ok => .done
  | .ended _ => .failed
  | _ => .pending (some (.file t.contents (created umask t.mode)))

/-- The register that the path is. -/
def register (path : String) (umask : ℕ) (s : State) : Register (Option Content) where
  value := s.shared.at? s.shared.dir path
  kept := {c | ∃ d ∈ s.shared.dir :: s.shared.past, s.shared.at? d path = c}
  writers i := (s.task? i).map (Task.writing umask)

theorem writing_live {umask : ℕ} {t : Task} (h : t.stage.live = true) :
    t.writing umask = .pending (some (.file t.contents (created umask t.mode))) := by
  unfold Task.writing
  split
  · rename_i hs
    rw [hs] at h
    exact absurd h (by simp [Stage.live])
  · rename_i r hr hs
    rw [hs] at h
    exact absurd h (by simp [Stage.live])
  · rfl

theorem writing_cases {umask : ℕ} {t t' : Task} (ht : t' = { t with stage := t'.stage })
    (hl : t.stage.live = true) (he : t'.stage ≠ .ended .ok) :
    t'.writing umask = t.writing umask ∨ t'.writing umask = .failed := by
  rw [writing_live hl]
  cases hl' : t'.stage.live with
  | true =>
    rw [writing_live hl', ht]
    exact Or.inl rfl
  | false =>
    refine Or.inr ?_
    unfold Task.writing
    cases hs : t'.stage with
    | ended r =>
      cases r with
      | ok => exact absurd hs he
      | _ => rfl
    | _ =>
      rw [hs] at hl'
      exact absurd hl' (by simp [Stage.live])

theorem writers_put {path : String} {umask : ℕ} {s : State} {i : ℕ} {x : Fs × Task} :
    (register path umask (s.put i x)).writers =
      Function.update (register path umask s).writers i (some (x.2.writing umask)) := by
  funext j
  simp only [register, Tasks.task?_put]
  by_cases hji : j = i
  · subst hji
    rw [if_pos rfl, Function.update_self]
    rfl
  · rw [if_neg hji, Function.update_of_ne hji]

/-- A power loss leaves at the path what one of the directories had there. -/
theorem at?_lose {path : String} {fs : Fs} (hset : fs.Settled path) (version : ℕ)
    (garbage : ℕ → Bytes) :
    ∃ c, (∃ d ∈ fs.dir :: fs.past, fs.at? d path = c) ∧
      (fs.lose version garbage).at? (fs.lose version garbage).dir path = c := by
  have hmem : (fs.lose version garbage).dir ∈ fs.dir :: fs.past := by
    simp only [Fs.lose, List.getD_eq_getElem?_getD]
    cases hv : (fs.dir :: fs.past)[version]? with
    | none => exact List.mem_cons_self
    | some x => exact List.mem_of_getElem? hv
  refine ⟨_, ⟨_, hmem, rfl⟩, at?_congr rfl fun ino hino => ?_⟩
  obtain ⟨n, hn, hsync⟩ := hset _ hmem ino hino
  simp only [Fs.lose, List.getElem?_mapIdx, hn, Option.map_some, hsync, if_true]

/-- **One step of the system is one step of the register**, or none. -/
theorem register_step {path : String} {umask : ℕ} {W : Set (Option Content)} {s s' : State}
    {a : Act} (hI : Program.Invariant (fun s => s.shared.Settled path)
      (fun _ => Task.Well path umask) Task.Apart s) (hok : Pids umask W s a)
    (h : (program path umask).step s a = some s') :
    register path umask s' = register path umask s ∨
      Register.Step W (register path umask s) (register path umask s') := by
  cases Program.step_cases h with
  | @spawned i t hnone hi =>
    have hs : t.stage = .mkdir := of_decide_eq_true hi
    have hput : register path umask (s.put i (s.shared, t)) = { register path umask s with
        writers :=
          Function.update (register path umask s).writers i (some (t.writing umask)) } := by
      rw [← writers_put (x := (s.shared, t))]
      rfl
    rw [hput, writing_live (by rw [hs]; rfl)]
    exact Or.inr (.begins hok.2 (by simp [register, hnone]))
  | @ran i o t t' w' ht hrun =>
    obtain ⟨hcall, hs⟩ := run_cases hrun
    have hwriters := @writers_put path umask s i (w', t')
    have hpending : (register path umask s).writers i =
        some (.pending (some (.file t.contents (created umask t.mode)))) := by
      simp only [register, ht, Option.map_some, writing_live hs.live]
    rcases hs.value (hI.task i t ht) hI.whole with ⟨hsame, he⟩ | ⟨he, hpast, hinodes, hval⟩
    · have hput : register path umask (s.put i (w', t')) = { register path umask s with
          writers :=
            Function.update (register path umask s).writers i (some (t'.writing umask)) } := by
        rw [← hwriters]
        exact congrArg₂ (fun v k => (⟨v, k, _⟩ : Register _)) hsame.value hsame.kept
      rw [hput]
      rcases writing_cases hcall hs.live he with hstat | hstat
      · left
        rw [hstat, writing_live hs.live, ← hpending, Function.update_eq_self]
      · right
        rw [hstat]
        exact .gives hpending
    · right
      have hdone : t'.writing umask = .done := by simp [Task.writing, he]
      have hkept : {c | ∃ d ∈ w'.dir :: w'.past, w'.at? d path = c} =
          insert (some (.file t.contents (created umask t.mode))) (register path umask s).kept := by
        have hat : ∀ d, w'.at? d path = s.shared.at? d path := fun d =>
          at?_congr rfl fun ino _ => by rw [hinodes]
        ext c
        simp only [register, hpast, List.mem_cons, Set.mem_ofPred_eq, Set.mem_insert_iff,
          exists_eq_or_imp, hval, ← hat, eq_comm (b := c)]
      have hput : register path umask (s.put i (w', t')) =
          ⟨some (.file t.contents (created umask t.mode)),
            insert (some (.file t.contents (created umask t.mode))) (register path umask s).kept,
            Function.update (register path umask s).writers i (some .done)⟩ := by
        rw [← hdone, ← hwriters]
        exact congrArg₂ (fun v k => (⟨v, k, _⟩ : Register _)) hval hkept
      rw [hput]
      exact .takes hpending
  | @outside e => exact e.elim
  | @crashed o =>
    right
    obtain ⟨c, hc, hval⟩ := at?_lose hI.whole o.version o.garbage
    have hboot : register path umask (.boot ((program path umask).restart s.shared o)) =
        ⟨c, {c}, fun _ => none⟩ := by
      refine congrArg₂ (fun v k => (⟨v, k, fun _ => none⟩ : Register _)) hval ?_
      ext x
      simp only [program, Tasks.shared_boot, Fs.lose, List.mem_singleton, Set.mem_ofPred_eq,
        exists_eq_left, Set.mem_singleton_iff]
      exact ⟨fun h => h.symm.trans hval, fun h => hval.trans h.symm⟩
    rw [hboot]
    exact .falls hc

/-- **A file that is replaced whole is a register.** Every run of the system is a run of the
register the path is. -/
theorem simulates {path : String} {umask : ℕ} {W : Set (Option Content)} {s₀ s : State}
    (hset : s₀.shared.Settled path) (h₀ : s₀.table = ∅)
    (h : Reach (program path umask).step (Pids umask W) s₀ s) :
    Register.Run W (register path umask s₀) (register path umask s) := by
  have hI : Program.Invariant (fun s : State => s.shared.Settled path)
      (fun _ => Task.Well path umask) Task.Apart s₀ := by
    rw [Tasks.eq_boot h₀]
    exact Program.Invariant.boot hset
  exact (h.simulate (fun _ _ _ hI hok hs => (keeps path umask W).step hI hok hs)
    (fun _ _ _ hI hok hs => register_step hI hok hs) hI).1

/-- **A file is replaced whole**, whatever processes write it at a time, wherever they are killed
and whenever the power goes: the path is a register, and what is there was there at the start or is
all of one write, with the bits that write asked for. -/
theorem replaced_whole {path : String} {umask : ℕ} {W : Set (Option Content)} {s₀ s : State}
    (hset : s₀.shared.Settled path) (h₀ : s₀.table = ∅)
    (h : Reach (program path umask).step (Pids umask W) s₀ s) :
    Register.Run W (register path umask s₀) (register path umask s) ∧
    ((∃ d ∈ s₀.shared.dir :: s₀.shared.past,
        s₀.shared.at? d path = s.shared.at? s.shared.dir path) ∨
      s.shared.at? s.shared.dir path ∈ W) := by
  have hrun := simulates hset h₀ h
  refine ⟨hrun, hrun.mem (fun i => ?_) ⟨_, List.mem_cons_self, rfl⟩⟩
  rw [Tasks.eq_boot h₀]
  rfl

theorem pids_iff {s : State} {t : Task} :
    (∀ j u, s.task? j = some u → u.stage.live = true → u.pid ≠ t.pid) ↔
      ∀ e ∈ s.table.entries, e.2.stage.live = true → e.2.pid ≠ t.pid :=
  ⟨fun h e he => h e.1 e.2 (Table.lookup_eq_some_iff.mpr he),
    fun h j u hu => h ⟨j, u⟩ (Table.lookup_eq_some_iff.mp hu)⟩

instance (umask : ℕ) (W : Set (Option Content)) [DecidablePred (· ∈ W)] (s : State) :
    ∀ a : Act, Decidable (Pids umask W s a)
  | .spawn _ t =>
    haveI : Decidable (∀ j u, s.task? j = some u → u.stage.live = true → u.pid ≠ t.pid) :=
      decidable_of_iff' _ pids_iff
    inferInstanceAs (Decidable
      ((∀ j u, s.task? j = some u → u.stage.live = true → u.pid ≠ t.pid) ∧
        some (.file t.contents (created umask t.mode)) ∈ W))
  | .step .. => .isTrue trivial
  | .outside e => e.elim
  | .crash _ => .isTrue trivial

namespace Sample

/-- A token file. -/
def boot : State :=
  .boot ⟨(∅ : Dir).insert "t" (.file 0), [], [⟨[1, 1], 0o600, true⟩]⟩

/-- What is written to it. -/
def written : Set (Option Content) :=
  {c | c ∈ [some (.file [2, 2] 0o600), some (.file [3, 3] 0o600)]}

instance : DecidablePred (· ∈ written) := fun c =>
  inferInstanceAs (Decidable (c ∈ [some (.file [2, 2] 0o600), some (.file [3, 3] 0o600)]))

/-- One byte at a time; a power loss brings back what was there two changes ago. -/
def calm : Outside := ⟨true, 1, false, 2, fun _ => [9]⟩

/-- The first process is killed in its write; another one with its pid writes to the end. -/
def writing : List Act :=
  [.spawn 0 ⟨7, [2, 2], 0o600, .mkdir⟩] ++ List.replicate 4 (.step 0 calm) ++
  [.step 0 { calm with killed := true }, .spawn 1 ⟨7, [3, 3], 0o600, .mkdir⟩] ++
  List.replicate 8 (.step 1 calm)

end Sample

/-- The file is the second write's, and after a power loss again what it was. -/
theorem replaced_whole_after_kill : ∃ s s',
    Register.Run Sample.written (register "t" 0o022 Sample.boot) (register "t" 0o022 s) ∧
    s.shared.at? s.shared.dir "t" = some (.file [3, 3] 0o600) ∧
    Register.Run Sample.written (register "t" 0o022 Sample.boot) (register "t" 0o022 s') ∧
    s'.shared.at? s'.shared.dir "t" = some (.file [1, 1] 0o600) := by
  have hset : Sample.boot.shared.Settled "t" := by
    intro d hd ino hino
    have hold : Sample.boot.shared.dir.lookup "t" = some (.file 0) := by decide +kernel
    rw [List.mem_singleton.mp hd] at hino
    obtain rfl := Entry.file.inj (Option.some.inj (hold.symm.trans hino))
    exact ⟨_, rfl, rfl⟩
  obtain ⟨s, hrun, hs⟩ := exec_check (program "t" 0o022).step (Pids 0o022 Sample.written)
    Sample.writing Sample.boot (fun s => s.shared.at? s.shared.dir "t" = some (.file [3, 3] 0o600))
    (by decide +kernel)
  obtain ⟨s', hrun', hs'⟩ := exec_check (program "t" 0o022).step (Pids 0o022 Sample.written)
    (Sample.writing ++ [.crash Sample.calm]) Sample.boot
    (fun s => s.shared.at? s.shared.dir "t" = some (.file [1, 1] 0o600)) (by decide +kernel)
  exact ⟨s, s', (replaced_whole hset rfl hrun).1, hs, (replaced_whole hset rfl hrun').1, hs'⟩

end Garret.Files
