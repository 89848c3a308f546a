import Garret.Upload.Built
import Garret.Wire

/-!
# Every derivation of a store hash agrees

A store path is split in four places: the client takes the hash to negotiate from the path
(`hash_of_store_path`), the server validates it (`store_basename`), the admin parses it
(`parse_store_hash`), and SQLite cuts it from a reference (`reference_hash`). A hash is named in
three: the blob's key, the narinfo's file and the NAR's URL.

* `hash_derivations`: all of them find one hash, and no key but its own is read as it.
* `Built.negotiated`: so an object is stored, and refers to others, under the hashes the client
  negotiates.
-/

namespace Garret

open Garret.Lib

/-! ## Characters of a basename -/

/-- A store hash is 32 characters of base32. -/
theorem isStoreHash_iff {s : String} :
    isStoreHash s = true ↔ s.length = 32 ∧ isNixBase32 s = true := by
  unfold isStoreHash
  rw [Bool.and_eq_true, beq_iff_eq]
  exact and_congr_left fun h => by rw [utf8ByteSize_of_base32 h]

theorem base32_not_mem {s : String} (h : isNixBase32 s = true) {c : Char}
    (hc : c ∉ nixBase32Alphabet) : c ∉ s.toList := fun hin =>
  hc (List.contains_iff_mem.mp (List.all_eq_true.mp h c hin))

/-- A basename holds no separator of directories. -/
theorem IsBasename.slash {base hash name : String} (h : IsBasename base hash name) :
    '/' ∉ base.toList := fun hin => absurd (h.chars '/' hin) (by decide)

/-- The characters of a basename, its hash in front. -/
theorem IsBasename.toList {base hash name : String} (h : IsBasename base hash name) :
    base.toList = hash.toList ++ '-' :: name.toList := by
  rw [h.base_eq, String.toList_append, String.toList_append, List.append_assoc]
  rfl

/-! ## Cutting a path -/

/-- The last segment of a path. -/
theorem afterLastSlash_append {base : List Char} (h : '/' ∉ base) (dir : List Char) :
    afterLastSlash (dir ++ '/' :: base) = base := by
  have hrev : '/' ∉ base.reverse := fun hin => h (List.mem_reverse.mp hin)
  unfold afterLastSlash
  rw [List.reverse_append, List.reverse_cons, List.append_assoc, List.singleton_append,
    takeWhile_bne hrev, List.reverse_reverse]

/-- One-byte characters are counted as bytes. -/
theorem takeBytes_ascii {a : List Char} (h : ∀ c ∈ a, c.utf8Size = 1) (b : List Char) :
    takeBytes a.length (a ++ b) = some a := by
  induction a with
  | nil => rw [List.length_nil, takeBytes]
  | cons c a ih =>
    have hc : c.utf8Size = 1 := h c List.mem_cons_self
    have ih := ih fun d hd => h d (List.mem_cons_of_mem _ hd)
    rw [List.length_cons, List.cons_append, takeBytes, hc, if_pos (by omega), Nat.add_sub_cancel,
      ih]
    rfl

/-! ## One hash -/

/-- Every derivation finds the hash `store_basename` accepted. -/
structure Derives (path base hash : String) : Prop where
  valid : isStoreHash hash = true
  /-- The part of the basename before its first dash. -/
  dash : (splitOnce '-' base).map Prod.fst = some hash
  client : hashOfStorePath path = hash
  admin : parseStoreHash path = some hash
  /-- The generated column of a row that refers to it. -/
  column : ∀ referrer, (ObjectRef.mk referrer base).referenceHash = hash

theorem IsBasename.derives {base hash name : String} (hbase : IsBasename base hash name)
    (storeDir : String) : Derives (storeDir ++ "/" ++ base) base hash := by
  obtain ⟨hlen, hbase32⟩ := isStoreHash_iff.mp hbase.hash
  have hdash : '-' ∉ hash.toList := base32_not_mem hbase32 (by decide)
  have htext : (storeDir ++ "/" ++ base).toList = storeDir.toList ++ '/' :: base.toList := by
    rw [String.toList_append, String.toList_append, List.append_assoc]
    rfl
  refine ⟨hbase.hash, ?_, ?_, ?_, ?_⟩
  · have hsplit : splitOnce '-' base = some (hash, name) := by
      rw [hbase.base_eq]
      exact splitOnce_append name hdash
    rw [hsplit]
    rfl
  · have htake : takeBytes 32 base.toList = some hash.toList := by
      rw [hbase.toList, ← hlen, ← String.length_toList]
      exact takeBytes_ascii (utf8Size_of_base32 hbase32) _
    unfold hashOfStorePath
    rw [htext, afterLastSlash_append hbase.slash]
    simp only [htake, Option.getD_some, String.ofList_toList]
  · have htrim : trimEndMatches '/' (storeDir ++ "/" ++ base).toList =
        (storeDir ++ "/" ++ base).toList := by
      have hends : (storeDir ++ "/" ++ base).toList =
          (storeDir.toList ++ ['/']) ++ base.toList := by simp
      have hne : base.toList ≠ [] := by simp [hbase.toList]
      rw [trimEndMatches_eq_self, hends, List.getLast?_append_of_ne_nil _ hne]
      exact fun hlast => hbase.slash (List.mem_of_getLast? hlast)
    unfold parseStoreHash
    rw [htrim, htext, afterLastSlash_append hbase.slash, hbase.toList]
    simp only [takeWhile_bne hdash, String.ofList_toList]
    exact if_pos hbase.hash
  · intro referrer
    unfold ObjectRef.referenceHash
    rw [hbase.toList, ← hlen, ← String.length_toList, List.take_left, String.ofList_toList]

theorem storeBasename_derives {path storeDir base : String}
    (h : storeBasename path storeDir = some base) : ∃ hash, Derives path base hash := by
  obtain ⟨rfl, hash, name, hbase⟩ := storeBasename_eq_some h
  exact ⟨hash, hbase.derives storeDir⟩

/-- A hash's names are read back, and no other key is read as it. -/
structure Named (hash : String) : Prop where
  key : hashFor (keyFor hash) = some hash
  narinfo : narinfoHash (narinfoFile hash) = some hash
  url : narUrl hash = keyFor hash
  /-- The NAR route's `{file}` segment. -/
  file : (stripPrefix "nar/" (narUrl hash)).bind narFileHash = some hash
  only : ∀ k, hashFor k = some hash → k = keyFor hash

theorem isStoreHash_named {hash : String} (h : isStoreHash hash = true) : Named hash := by
  have hne : hash ≠ "" := by
    rintro rfl
    exact absurd h (by decide)
  refine ⟨hashFor_keyFor hne, stripSuffix_eq_some.mpr rfl, rfl, ?_, fun k => hashFor_eq_some⟩
  have hfile : stripPrefix "nar/" (narUrl hash) = some (hash ++ narSuffix) := by
    rw [stripPrefix_eq_some, narUrl, String.append_assoc]
    rfl
  rw [hfile, Option.bind_some]
  exact stripSuffix_eq_some.mpr rfl

/-- **Every derivation of a store hash agrees.** -/
theorem hash_derivations (storeDir : String) :
    (∀ path base, storeBasename path storeDir = some base → ∃ hash, Derives path base hash) ∧
    ∀ hash, isStoreHash hash = true → Named hash :=
  ⟨fun _ _ => storeBasename_derives, fun _ => isStoreHash_named⟩

/-- A path of the store, and its hash. -/
theorem hash_derivations_payload :
    (∃ hash, Derives "/nix/store/v2xb3fmd3qd34s7q7sngajj8rjl5k25j-payload"
      "v2xb3fmd3qd34s7q7sngajj8rjl5k25j-payload" hash) ∧
    Named "v2xb3fmd3qd34s7q7sngajj8rjl5k25j" :=
  ⟨(hash_derivations "/nix/store").1 _ _ (by decide),
    (hash_derivations "/nix/store").2 _ (by decide)⟩

/-! ## What the server stores -/

/-- **An object is stored under the hash the client negotiates for it**, and it refers to what the
client negotiates for its references. -/
theorem Built.negotiated {δ : Type} {srv : Server δ} {hash : String} {preamble : Preamble}
    {o : Object} (h : Built srv hash preamble o) (hhash : isStoreHash hash = true) :
    hashOfStorePath o.storePath = o.storePathHash ∧
      (preamble.references.map hashOfStorePath).Perm
        (o.references.map fun r => (ObjectRef.mk o.storePathHash r).referenceHash) := by
  obtain ⟨_, name, hbase⟩ := h.base
  constructor
  · have hderives := hbase.derives srv.storeDir
    -- the URL's hash has no dash, so it is what stands before the first one
    have hdash : '-' ∉ hash.toList := base32_not_mem (isStoreHash_iff.mp hhash).2 (by decide)
    have hfirst : splitOnce '-' (hash ++ "-" ++ o.name) = some (hash, o.name) :=
      splitOnce_append o.name hdash
    have hclient := hderives.client
    have hsame := hderives.dash
    rw [hfirst] at hsame
    rw [h.storePath, h.storePathHash, hclient]
    exact (Option.some.inj hsame).symm
  · have hmap : (o.references.map fun r => srv.storeDir ++ "/" ++ r).map hashOfStorePath =
        o.references.map fun r => (ObjectRef.mk o.storePathHash r).referenceHash := by
      rw [List.map_map]
      refine List.map_congr_left fun r hr => ?_
      obtain ⟨_, n, hr⟩ := h.basenames r hr
      have hderives := hr.derives srv.storeDir
      rw [Function.comp_apply, hderives.client, hderives.column]
    rw [← hmap]
    exact h.references.map hashOfStorePath

end Garret
