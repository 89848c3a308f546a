import Garret.Spelling
import Garret.Upload.Store

/-!
# What `build_object` admits

`build_object` (`crates/garret-pusher/src/main.rs`) turns a preamble into the object whose row,
narinfo and fingerprint are made of its fields. `Built` collects what holds of an object it returns:
which characters its fields may have, and that its references are the preamble's, sorted.

The schema asks one thing more. `object_refs` has the key `(referrer, reference)`, and the list of
references is sorted but not cut to a set: `insertable_iff` says that the row of an admitted
preamble can be inserted exactly when the preamble lists no reference twice, and
`repeated_reference` is one that cannot.
-/

namespace Garret

section

variable {δ : Type} {srv : Server δ}

/-- What holds of an object that `build_object` returned. -/
structure Built (srv : Server δ) (hash : String) (preamble : Preamble) (o : Object) : Prop where
  storePathHash : o.storePathHash = hash
  storePath : o.storePath = srv.storeDir ++ "/" ++ (hash ++ "-" ++ o.name)
  base : ∃ h n, IsBasename (hash ++ "-" ++ o.name) h n
  references : preamble.references.Perm (o.references.map fun r => srv.storeDir ++ "/" ++ r)
  sorted : o.references.Pairwise (· ≤ ·)
  basenames : ∀ r ∈ o.references, ∃ h n, IsBasename r h n
  deriver : ∀ d ∈ o.deriver, ∃ h n, IsBasename d h n
  ca : ∀ ca ∈ o.ca, '\n' ∉ ca.toList ∧ '\r' ∉ ca.toList
  narHash : ∃ digest, o.narHash = "sha256:" ++ digest ∧ isNixBase32 digest = true

theorem basename_eq_ok {path what base : String} :
    basename srv path what = .ok base ↔ storeBasename path srv.storeDir = some base := by
  unfold basename
  cases storeBasename path srv.storeDir with
  | none => simp
  | some b => simp

/-- The basenames of a list of references are taken one by one. -/
theorem mapM_basename {what : String} : ∀ {paths bases : List String},
    paths.mapM (fun r => basename srv r what) = .ok bases ↔
      bases.map some = paths.map fun r => storeBasename r srv.storeDir
  | [], bases => by
    rw [List.mapM_nil, pure_eq_ok]
    cases bases <;> simp
  | r :: paths, bases => by
    rw [List.mapM_cons, bind_eq_ok]
    constructor
    · rintro ⟨b, hb, h⟩
      obtain ⟨bs, hbs, h⟩ := bind_eq_ok.mp h
      obtain rfl := pure_eq_ok.mp h
      rw [List.map_cons, List.map_cons, basename_eq_ok.mp hb, mapM_basename.mp hbs]
    · intro h
      cases bases with
      | nil => exact absurd h (by simp)
      | cons b bs =>
        rw [List.map_cons, List.map_cons, List.cons.injEq] at h
        exact ⟨b, basename_eq_ok.mpr h.1.symm, bind_eq_ok.mpr ⟨bs, mapM_basename.mpr h.2, rfl⟩⟩

/-- A reference is its basename under the store directory. -/
theorem references_eq {paths bases : List String}
    (h : bases.map some = paths.map fun r => storeBasename r srv.storeDir) :
    paths = bases.map (fun r => srv.storeDir ++ "/" ++ r) ∧
      ∀ r ∈ bases, ∃ hash n, IsBasename r hash n := by
  induction paths generalizing bases with
  | nil =>
    rw [List.map_nil, List.map_eq_nil_iff] at h
    subst h
    simp
  | cons r paths ih =>
    cases bases with
    | nil => exact absurd h (by simp)
    | cons b bs =>
      rw [List.map_cons, List.map_cons, List.cons.injEq] at h
      obtain ⟨hpath, hname⟩ := storeBasename_eq_some h.1.symm
      obtain ⟨hpaths, hnames⟩ := ih h.2
      refine ⟨by rw [List.map_cons, ← hpaths, ← hpath], ?_⟩
      simpa using ⟨hname, hnames⟩

theorem objectName_ok {hash name : String} {preamble : Preamble}
    (h : objectName srv hash preamble = .ok name) :
    storeBasename preamble.storePath srv.storeDir = some (hash ++ "-" ++ name) := by
  unfold objectName at h
  split at h
  · rename_i n hn
    obtain rfl := Except.ok.inj h
    obtain ⟨base, hbase, hn⟩ := Option.bind_eq_some_iff.mp hn
    obtain ⟨rest, hrest, hdash⟩ := Option.bind_eq_some_iff.mp hn
    rw [stripPrefix_eq_some] at hrest hdash
    rw [hbase, hrest, hdash, String.append_assoc]
  · exact absurd h (by simp)

theorem deriverName_ok {d? name? : Option String} (h : deriverName srv d? = .ok name?) :
    ∀ d ∈ name?, ∃ hash n, IsBasename d hash n := by
  cases d? with
  | none =>
    obtain rfl := Except.ok.inj h
    simp
  | some d =>
    simp only [deriverName] at h
    cases hb : basename srv d "deriver" with
    | error e =>
      rw [hb] at h
      exact absurd h (by simp [Except.map])
    | ok b =>
      rw [hb] at h
      obtain rfl := Except.ok.inj h
      rintro x hx
      obtain rfl := Option.mem_some.mp hx
      exact (storeBasename_eq_some (basename_eq_ok.mp hb)).2

theorem checkCa_ok {ca? : Option String} {u : Unit} (h : checkCa ca? = .ok u) :
    ∀ ca ∈ ca?, '\n' ∉ ca.toList ∧ '\r' ∉ ca.toList := by
  rintro ca hca
  obtain rfl := Option.mem_def.mp hca
  unfold checkCa at h
  split at h
  · exact absurd h (by simp)
  · rename_i hf
    simp only [Option.filter_eq_none_iff, Option.some.injEq, forall_eq', List.any_eq_true,
      Bool.or_eq_true, beq_iff_eq, not_exists, not_and, not_or] at hf
    exact ⟨fun hin => (hf _ hin).1 rfl, fun hin => (hf _ hin).2 rfl⟩

/-- The steps of `build_object`, for an object it returned. -/
theorem buildObject_steps {hash subject : String} {preamble : Preamble} {o : Object}
    (h : buildObject srv hash preamble subject = .ok o) :
    ∃ bases : List String, objectName srv hash preamble = .ok o.name ∧
      bases.map some = (preamble.references.map fun r => storeBasename r srv.storeDir) ∧
      o.references = bases.insertionSort (· ≤ ·) ∧
      deriverName srv preamble.deriver = .ok o.deriver ∧ checkCa preamble.ca = .ok () ∧
      o.ca = preamble.ca ∧ o.storePath = preamble.storePath := by
  unfold buildObject at h
  obtain ⟨name, hname, h⟩ := bind_eq_ok.mp h
  obtain ⟨bases, hbases, h⟩ := bind_eq_ok.mp h
  obtain ⟨deriver, hderiver, h⟩ := bind_eq_ok.mp h
  obtain ⟨_, hca, h⟩ := bind_eq_ok.mp h
  obtain ⟨narHash, -, h⟩ := bind_eq_ok.mp h
  obtain rfl := Except.ok.inj h
  exact ⟨bases, hname, mapM_basename.mp hbases, rfl, hderiver, hca, rfl, rfl⟩

/-- **What `build_object` admits.** -/
theorem buildObject_built {hash subject : String} {preamble : Preamble} {o : Object}
    (h : buildObject srv hash preamble subject = .ok o) : Built srv hash preamble o := by
  obtain ⟨bases, hname, hbases, hrefs, hderiver, hca, hcaeq, hpath⟩ := buildObject_steps h
  obtain ⟨hhash, -, -, hnorm⟩ := buildObject_ok h
  obtain ⟨hstore, hbase⟩ := storeBasename_eq_some (objectName_ok hname)
  obtain ⟨hpaths, hnames⟩ := references_eq hbases
  have hperm : o.references.Perm bases := hrefs ▸ List.perm_insertionSort _ _
  refine ⟨hhash, by rw [hpath, hstore], hbase, ?_, ?_, fun r hr => hnames r (hperm.subset hr),
    deriverName_ok hderiver, ?_, (normalizeHash_ok hnorm).imp fun _ hd => ⟨hd.1, hd.2.2⟩⟩
  · rw [hpaths]
    exact (hperm.map _).symm
  · rw [hrefs]
    exact List.pairwise_insertionSort _ _
  · rw [hcaeq]
    exact checkCa_ok hca

/-- The order of the references in the preamble makes no difference. -/
theorem buildObject_perm {hash subject : String} {preamble : Preamble} {o : Object}
    (h : buildObject srv hash preamble subject = .ok o) {references : List String}
    (hperm : references.Perm preamble.references) :
    buildObject srv hash { preamble with references := references } subject = .ok o := by
  unfold buildObject at h
  obtain ⟨name, hname, h⟩ := bind_eq_ok.mp h
  obtain ⟨bases, hbases, h⟩ := bind_eq_ok.mp h
  obtain ⟨deriver, hderiver, h⟩ := bind_eq_ok.mp h
  obtain ⟨_, hca, h⟩ := bind_eq_ok.mp h
  obtain ⟨narHash, hnar, h⟩ := bind_eq_ok.mp h
  rw [mapM_basename] at hbases
  -- the basenames of the other order are a permutation of these, so they sort alike
  obtain ⟨bases', hbases', hperm'⟩ : ∃ bases' : List String,
      bases'.map some = references.map (fun r => storeBasename r srv.storeDir) ∧
      bases'.Perm bases := by
    refine ⟨references.map fun r => (storeBasename r srv.storeDir).getD "", ?_, ?_⟩
    · rw [List.map_map]
      refine List.map_congr_left fun r hr => ?_
      obtain ⟨b, -, hb⟩ := List.mem_map.mp
        (hbases ▸ List.mem_map_of_mem (hperm.subset hr) :
          storeBasename r srv.storeDir ∈ bases.map some)
      simp [← hb]
    · have hback : bases = preamble.references.map fun r => (storeBasename r srv.storeDir).getD "" := by
        have := congrArg (List.map fun b : Option String => b.getD "") hbases
        simpa [Function.comp_def] using this
      rw [hback]
      exact hperm.map _
  unfold buildObject
  refine bind_eq_ok.mpr ⟨name, hname, bind_eq_ok.mpr ⟨bases', mapM_basename.mpr hbases',
    bind_eq_ok.mpr ⟨deriver, hderiver, bind_eq_ok.mpr ⟨(), hca, bind_eq_ok.mpr ⟨narHash, hnar, ?_⟩⟩⟩⟩⟩
  rw [sort_congr hperm']
  exact h

theorem storePath_injective {pre : String} : Function.Injective fun r : String => pre ++ "/" ++ r := by
  intro a b h
  simpa using h

/-- **An admitted preamble can be stored exactly when it lists no reference twice.** Then no
statement meets a constraint, and the insert commits unless the database fails; else the insert
fails on the key of `object_refs`, whatever the database holds. -/
theorem insertable_iff {hash subject : String} {preamble : Preamble} {o : Object}
    (h : buildObject srv hash preamble subject = .ok o) (fileHash : String) (fileSize : Int)
    (sigs : List String) (now : Int) (db : Db) :
    ((insertObject noFaults { o with fileHash := fileHash, fileSize := fileSize, sigs := sigs }
        now db).1 = .ok () ∧
      ∀ io, (insertObject io { o with fileHash := fileHash, fileSize := fileSize, sigs := sigs }
        now db).1 ≠ .error .constraint) ↔ preamble.references.Nodup := by
  have hnd : preamble.references.Nodup ↔ o.references.Nodup :=
    (buildObject_built h).references.nodup_iff.trans (List.nodup_map_iff storePath_injective)
  rw [hnd]
  constructor
  · rintro ⟨hok, -⟩
    rcases insertObject_cases (Prod.mk.eta (p := insertObject noFaults { o with
      fileHash := fileHash, fileSize := fileSize, sigs := sigs } now db)).symm with ⟨-, hi⟩ | ⟨⟨e, he⟩, -⟩
    · exact hi.refs_distinct
    · rw [hok] at he
      exact absurd he (by simp)
  · intro hrefs
    have hfails : ∀ io, FailsOnlyOn io (insertObject io { o with
        fileHash := fileHash, fileSize := fileSize, sigs := sigs } now db).1 :=
      fun io => by
        apply insertObject_fails
        exact hrefs
    refine ⟨?_, fun io hc => ?_⟩
    · rcases hfails noFaults with ⟨_, ha⟩ | ⟨⟨k, hk⟩, -⟩
      · exact ha
      · exact absurd hk (by simp [noFaults])
    · rcases hfails io with ⟨_, ha⟩ | ⟨-, ha⟩
      · rw [ha] at hc
        exact absurd hc (by simp)
      · rw [ha] at hc
        exact absurd hc (by simp)

end

namespace Sample

/-- The example's preamble, with references. -/
def withReferences (references : List String) : Preamble := { preamble with references := references }

/-- The object of such a preamble. -/
def objectWith (references : List String) : Object where
  storePathHash := hash
  storePath := "/nix/store/0c7qrl7qkgy1ypf0n3c8b1kz3w5hlm2d-app"
  name := "app"
  narHash := "sha256:1q6zw3dd7l2vnwk06rlnzwl8g1582sbagj6hccngspc7yvhrip52"
  narSize := 6
  fileHash := ""
  fileSize := 0
  deriver := none
  ca := none
  references := references
  sigs := []
  pushedBy := some "ci"

end Sample

/-- The example that refers to itself and to a library is stored. -/
theorem insertable_iff_self :
    buildObject Sample.server Sample.hash (Sample.withReferences
      ["/nix/store/1yv7kz2w3c9r5x0ab4d6fgh8jlmnpqrs-lib",
        "/nix/store/0c7qrl7qkgy1ypf0n3c8b1kz3w5hlm2d-app"]) "ci" =
      .ok (Sample.objectWith ["0c7qrl7qkgy1ypf0n3c8b1kz3w5hlm2d-app",
        "1yv7kz2w3c9r5x0ab4d6fgh8jlmnpqrs-lib"]) ∧
    (insertObject noFaults { Sample.objectWith ["0c7qrl7qkgy1ypf0n3c8b1kz3w5hlm2d-app",
        "1yv7kz2w3c9r5x0ab4d6fgh8jlmnpqrs-lib"] with
      fileHash := "sha256:x", fileSize := 15, sigs := ["echo-1:x"] } 7 Db.empty).1 = .ok () := by
  have hbuild : buildObject Sample.server Sample.hash (Sample.withReferences
      ["/nix/store/1yv7kz2w3c9r5x0ab4d6fgh8jlmnpqrs-lib",
        "/nix/store/0c7qrl7qkgy1ypf0n3c8b1kz3w5hlm2d-app"]) "ci" =
      .ok (Sample.objectWith ["0c7qrl7qkgy1ypf0n3c8b1kz3w5hlm2d-app",
        "1yv7kz2w3c9r5x0ab4d6fgh8jlmnpqrs-lib"]) := by decide +kernel
  exact ⟨hbuild, ((insertable_iff hbuild "sha256:x" 15 ["echo-1:x"] 7 Db.empty).mpr
    (by decide +kernel)).1⟩

/-- **A preamble that can never be stored is admitted.** The library is listed twice: the preamble
passes `build_object`, and the insert fails on the key of `object_refs`. -/
theorem repeated_reference :
    isStoreHash Sample.hash = true ∧
    buildObject Sample.server Sample.hash (Sample.withReferences
      ["/nix/store/1yv7kz2w3c9r5x0ab4d6fgh8jlmnpqrs-lib",
        "/nix/store/1yv7kz2w3c9r5x0ab4d6fgh8jlmnpqrs-lib"]) "ci" =
      .ok (Sample.objectWith ["1yv7kz2w3c9r5x0ab4d6fgh8jlmnpqrs-lib",
        "1yv7kz2w3c9r5x0ab4d6fgh8jlmnpqrs-lib"]) ∧
    (insertObject noFaults { Sample.objectWith ["1yv7kz2w3c9r5x0ab4d6fgh8jlmnpqrs-lib",
        "1yv7kz2w3c9r5x0ab4d6fgh8jlmnpqrs-lib"] with
      fileHash := "sha256:x", fileSize := 15, sigs := ["echo-1:x"] } 7 Db.empty).1 =
      .error .constraint :=
  ⟨by decide +kernel, by decide +kernel, by decide +kernel⟩

end Garret
