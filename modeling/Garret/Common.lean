import Garret.Lib.Text
import Garret.Lib.Utf8
import Mathlib.Data.List.Sort
import Mathlib.Data.List.TakeDrop
import Mathlib.Data.String.Basic

/-!
# Store-path helpers, hashes and blob keys

Model of the parts of `crates/garret-common/src/lib.rs` and of the key layout in
`crates/garret-server/src/storage.rs` that the cache's protocols use.

* Byte strings are `List UInt8`. `sha256` itself is a parameter wherever a digest is taken; what is
  modelled here is its spelling (`nixBase32Encode`, `sha256Nix32`).
* `is_store_hash` counts bytes; every character of the alphabet is one byte, so the same test on
  characters is `isNixBase32` plus the byte size.
* `str::get(..32)` fails inside a character and past the end: `takeBytes`.
* Lengths are exact: `bytes * 8` leaves `usize` for no slice that fits an address space. Indexing
  past an array and shifting a `u8` by its width or more stop the process: `nixBase32Encode?`.
-/

namespace Garret

/-- A byte string (`Vec<u8>`, `Bytes`). -/
abbrev Bytes := List UInt8

/-- `PUSH_GRACE`: seconds a push protects what it negotiated. -/
def pushGrace : Int := 86400

/-- `PUSH_GRACE_HOURS`, for operator messages. -/
def pushGraceHours : Int := pushGrace / 3600

/-- A successful `do` block ran both halves. -/
theorem bind_eq_ok {ε α β : Type} {x : Except ε α} {f : α → Except ε β} {b : β} :
    x >>= f = .ok b ↔ ∃ a, x = .ok a ∧ f a = .ok b := by
  cases x with
  | error e => simp [bind, Except.bind]
  | ok a => simp [bind, Except.bind]

theorem pure_eq_ok {ε α : Type} {a b : α} :
    (pure a : Except ε α) = .ok b ↔ a = b := by
  simp [pure, Except.pure]

/-- `slice::chunks(n)`, at most `fuel` of them. -/
def chunksAux {α : Type} (n : ℕ) : ℕ → List α → List (List α)
  | 0, _ => []
  | _ + 1, [] => []
  | fuel + 1, x :: xs => (x :: xs).take n :: chunksAux n fuel ((x :: xs).drop n)

/-- `slice::chunks(n)`: runs of `n`, the last one shorter. -/
def chunks {α : Type} (n : ℕ) (l : List α) : List (List α) := chunksAux n l.length l

theorem flatten_chunksAux {α : Type} {n : ℕ} (hn : 0 < n) :
    ∀ (fuel : ℕ) (l : List α), l.length ≤ fuel → (chunksAux n fuel l).flatten = l
  | 0, l, h => by simp [chunksAux, List.length_eq_zero_iff.mp (Nat.le_zero.mp h)]
  | _ + 1, [], _ => rfl
  | fuel + 1, x :: xs, h => by
    have hlen : ((x :: xs).drop n).length ≤ fuel := by
      rw [List.length_drop]
      simp only [List.length_cons] at h ⊢
      omega
    rw [chunksAux, List.flatten_cons, flatten_chunksAux hn fuel _ hlen, List.take_append_drop]

/-- The chunks are the list, cut. -/
theorem flatten_chunks {α : Type} {n : ℕ} (hn : 0 < n) (l : List α) : (chunks n l).flatten = l :=
  flatten_chunksAux hn l.length l (Nat.le_refl _)

/-- What is in a list is the element taken out, or still there. -/
theorem mem_eraseIdx_or {α : Type} {l : List α} {k : ℕ} {x y : α} (hx : l[k]? = some x)
    (hy : y ∈ l) : y = x ∨ y ∈ l.eraseIdx k := by
  obtain ⟨i, hi⟩ := List.mem_iff_getElem?.mp hy
  by_cases hik : i = k
  · subst hik
    exact Or.inl (Option.some.inj (hi.symm.trans hx))
  · exact Or.inr (List.mem_eraseIdx_iff_getElem?.mpr ⟨i, hik, hi⟩)

/-- Two orders of one list sort to the same list. -/
theorem sort_congr {a b : List String} (h : a.Perm b) :
    a.insertionSort (· ≤ ·) = b.insertionSort (· ≤ ·) :=
  List.Perm.eq_of_pairwise (fun _ _ _ _ => le_antisymm)
    (List.pairwise_insertionSort _ _) (List.pairwise_insertionSort _ _)
    ((List.perm_insertionSort _ _).trans (h.trans (List.perm_insertionSort _ _).symm))

/-! ## Nix's base32 -/

/-- `NIX_BASE32_ALPHABET`: no `e`, `o`, `u`, `t`. -/
def nixBase32Alphabet : List Char := "0123456789abcdfghijklmnpqrsvwxyz".toList

/-- `is_nix_base32`. -/
def isNixBase32 (s : String) : Bool := s.toList.all fun c => nixBase32Alphabet.contains c

/-- `nix_base32_len`. -/
def nixBase32Len (bytes : ℕ) : ℕ := if bytes = 0 then 0 else (bytes * 8 - 1) / 5 + 1

/-- The five bits of group `n`: `bytes[i] >> j`, and the low bits of the next byte above them
unless the group is byte-aligned or there is no next byte. -/
def nixBase32Group (bytes : Bytes) (n : ℕ) : UInt8 :=
  let i := n * 5 / 8
  let j := n * 5 % 8
  let lo := bytes.getD i 0 >>> UInt8.ofNat j
  let hi := if j = 0 then 0 else bytes.getD (i + 1) 0 <<< UInt8.ofNat (8 - j)
  (lo ||| hi) &&& 0x1f

/-- `nix_base32_encode`, least-significant group last. -/
def nixBase32Encode (bytes : Bytes) : String :=
  String.ofList <| ((List.range (nixBase32Len bytes.length)).reverse.map fun n =>
    nixBase32Alphabet.getD (nixBase32Group bytes n).toNat '0')

/-- `b >> j` on a `u8`. -/
def shr? (b : UInt8) (j : ℕ) : Option UInt8 := if j < 8 then some (b >>> UInt8.ofNat j) else none

/-- `b << j` on a `u8`. -/
def shl? (b : UInt8) (j : ℕ) : Option UInt8 := if j < 8 then some (b <<< UInt8.ofNat j) else none

/-- What the next byte adds to a group that starts at bit `j`: nothing when the group is
byte-aligned or there is no next byte. -/
def nixBase32Carry? (j : ℕ) (next : Option UInt8) : Option UInt8 :=
  match j, next with
  | 0, _ => some 0
  | _, none => some 0
  | _, some next => shl? next (8 - j)

/-- Group `n` with its index and its shifts checked. -/
def nixBase32Group? (bytes : Bytes) (n : ℕ) : Option UInt8 := do
  let i := n * 5 / 8
  let j := n * 5 % 8
  let byte ← bytes[i]?
  let lo ← shr? byte j
  let hi ← nixBase32Carry? j bytes[i + 1]?
  return (lo ||| hi) &&& 0x1f

/-- `nix_base32_encode` with every index and shift checked, `none` where the process would stop. -/
def nixBase32Encode? (bytes : Bytes) : Option String := do
  let chars ← (List.range (nixBase32Len bytes.length)).reverse.mapM fun n => do
    let group ← nixBase32Group? bytes n
    nixBase32Alphabet[group.toNat]?
  return String.ofList chars

/-- `sha256_nix32`: a digest as narinfo spells it. -/
def sha256Nix32 (digest : Bytes) : String := "sha256:" ++ nixBase32Encode digest

/-! ## Store paths -/

/-- `is_store_hash`: 32 bytes of Nix's base32. -/
def isStoreHash (s : String) : Bool := s.utf8ByteSize == 32 && isNixBase32 s

/-- `s.get(..n)`: the first `n` bytes, when they end on a character. -/
def takeBytes : ℕ → List Char → Option (List Char)
  | 0, _ => some []
  | _ + 1, [] => none
  | n + 1, c :: cs => if c.utf8Size ≤ n + 1 then (takeBytes (n + 1 - c.utf8Size) cs).map (c :: ·) else none

/-- `path.rsplit('/').next()`: what follows the last `/`. -/
def afterLastSlash (s : List Char) : List Char := (s.reverse.takeWhile (· != '/')).reverse

/-- `hash_of_store_path`. -/
def hashOfStorePath (path : String) : String :=
  let base := afterLastSlash path.toList
  String.ofList ((takeBytes 32 base).getD base)

/-- `s.strip_prefix(pre)`. -/
def stripPrefix (pre s : String) : Option String :=
  if pre.toList.isPrefixOf s.toList then some (String.ofList (s.toList.drop pre.toList.length))
  else none

/-- `s.split_once(c)`. -/
def splitOnce (c : Char) (s : String) : Option (String × String) :=
  match s.toList.span (· != c) with
  | (_, []) => none
  | (a, _ :: b) => some (String.ofList a, String.ofList b)

/-- `store_basename`: `<store_dir>/<hash>-<name>` without the directory, if nix would accept it. -/
def storeBasename (path storeDir : String) : Option String := do
  let base ← stripPrefix storeDir path
  let base ← stripPrefix "/" base
  let (hash, name) ← splitOnce '-' base
  let nameOk := decide (1 ≤ name.utf8ByteSize ∧ name.utf8ByteSize ≤ 211) &&
    name.toList.all fun c => c.isAlphanum || "+-._?=".toList.contains c
  if isStoreHash hash && nameOk then some base else none

/-- The characters of a basename: those of a name, base32 and the dash among them. -/
def isNameChar (c : Char) : Bool := c.isAlphanum || "+-._?=".toList.contains c

/-- What `store_basename` accepts: a store hash, a dash and a name of 1 to 211 plain characters. -/
structure IsBasename (base hash name : String) : Prop where
  base_eq : base = hash ++ "-" ++ name
  hash : isStoreHash hash = true
  size : 1 ≤ name.utf8ByteSize ∧ name.utf8ByteSize ≤ 211
  name : name.toList.all isNameChar = true

theorem stripPrefix_eq_some {pre s rest : String} : stripPrefix pre s = some rest ↔ s = pre ++ rest := by
  unfold stripPrefix
  constructor
  · intro h
    split at h
    · rename_i hp
      obtain ⟨t, ht⟩ := List.isPrefixOf_iff_prefix.mp hp
      obtain rfl := Option.some.inj h
      apply String.toList_injective
      simp [← ht]
    · exact absurd h (by simp)
  · rintro rfl
    simp

theorem splitOnce_eq_some {c : Char} {s a b : String} (h : splitOnce c s = some (a, b)) :
    s = a ++ String.singleton c ++ b ∧ c ∉ a.toList := by
  unfold splitOnce at h
  rw [List.span_eq_takeWhile_dropWhile] at h
  split at h
  · exact absurd h (by simp)
  · rename_i p x q heq
    simp only [Prod.mk.injEq] at heq
    obtain ⟨hp, hq⟩ := heq
    simp only [Option.some.injEq, Prod.mk.injEq] at h
    obtain ⟨rfl, rfl⟩ := h
    have hx : x = c := by
      have := List.head?_dropWhile_not (· != c) s.toList
      rw [hq] at this
      simpa using this
    refine ⟨?_, ?_⟩
    · apply String.toList_injective
      rw [← List.takeWhile_append_dropWhile (p := (· != c)) (l := s.toList), hp, hq, hx]
      simp
    · intro hc
      rw [String.toList_ofList, ← hp] at hc
      have := List.all_eq_true.mp (List.all_takeWhile (p := (· != c)) (l := s.toList)) c hc
      simp at this

theorem splitOnce_append {c : Char} {a : String} (b : String) (h : c ∉ a.toList) :
    splitOnce c (a ++ String.singleton c ++ b) = some (a, b) := by
  unfold splitOnce
  rw [List.span_eq_takeWhile_dropWhile]
  have htext : (a ++ String.singleton c ++ b).toList = a.toList ++ c :: b.toList := by simp
  rw [htext, Lib.takeWhile_bne h, Lib.dropWhile_bne h]
  simp

theorem isNameChar_of_base32 {s : String} (h : isNixBase32 s = true) :
    ∀ c ∈ s.toList, isNameChar c = true := by
  intro c hc
  have hall : nixBase32Alphabet.all isNameChar = true := by decide
  exact List.all_eq_true.mp hall c (List.contains_iff_mem.mp (List.all_eq_true.mp h c hc))

theorem isNixBase32_encode (bytes : Bytes) : isNixBase32 (nixBase32Encode bytes) = true := by
  unfold isNixBase32 nixBase32Encode
  rw [String.toList_ofList, List.all_map, List.all_eq_true]
  intro n _
  simp only [Function.comp, List.contains_iff_mem, List.getD_eq_getElem?_getD]
  cases h : nixBase32Alphabet[(nixBase32Group bytes n).toNat]? with
  | none => decide
  | some c => exact List.mem_of_getElem? h

/-- Base32 is plain ASCII. -/
theorem utf8Size_of_base32 {s : String} (h : isNixBase32 s = true) :
    ∀ c ∈ s.toList, c.utf8Size = 1 := by
  intro c hc
  have hall : nixBase32Alphabet.all (fun c => c.utf8Size == 1) = true := by decide
  have hmem := List.contains_iff_mem.mp (List.all_eq_true.mp h c hc)
  exact beq_iff_eq.mp (List.all_eq_true.mp hall c hmem)

theorem utf8ByteSize_of_base32 {s : String} (h : isNixBase32 s = true) :
    s.utf8ByteSize = s.length := Lib.utf8ByteSize_eq_length (utf8Size_of_base32 h)

/-- A basename has plain characters only. -/
theorem IsBasename.chars {base hash name : String} (h : IsBasename base hash name) :
    ∀ c ∈ base.toList, isNameChar c = true := by
  have hhash : isNixBase32 hash = true := by
    have := h.hash
    simp only [isStoreHash, Bool.and_eq_true] at this
    exact this.2
  intro c hc
  rw [h.base_eq, String.toList_append, String.toList_append, List.mem_append, List.mem_append] at hc
  rcases hc with (hc | hc) | hc
  · exact isNameChar_of_base32 hhash c hc
  · rw [List.mem_singleton.mp hc]
    decide
  · exact List.all_eq_true.mp h.name c hc

/-- **What `store_basename` accepts, and that it only drops the directory.** -/
theorem storeBasename_eq_some {path storeDir base : String}
    (h : storeBasename path storeDir = some base) :
    path = storeDir ++ "/" ++ base ∧ ∃ hash name, IsBasename base hash name := by
  unfold storeBasename at h
  obtain ⟨rest, hrest, h⟩ := Option.bind_eq_some_iff.mp h
  obtain ⟨base', hbase, h⟩ := Option.bind_eq_some_iff.mp h
  obtain ⟨⟨hash, name⟩, hsplit, h⟩ := Option.bind_eq_some_iff.mp h
  simp only at h
  split at h
  · rename_i hok
    obtain rfl := Option.some.inj h
    rw [stripPrefix_eq_some] at hrest hbase
    simp only [Bool.and_eq_true, decide_eq_true_eq] at hok
    refine ⟨?_, hash, name, (splitOnce_eq_some hsplit).1, hok.1, hok.2.1, hok.2.2⟩
    rw [hrest, hbase, String.append_assoc]
  · exact absurd h (by simp)

/-- A store path's basename has a hash before the first dash. -/
theorem storeBasename_dash {path storeDir base : String}
    (h : storeBasename path storeDir = some base) : ¬ ['-'] <+: base.toList := by
  obtain ⟨-, hash, name, hb⟩ := storeBasename_eq_some h
  rintro ⟨rest, hrest⟩
  have hhash := hb.hash
  rw [hb.base_eq] at hrest
  cases hc : hash.toList with
  | nil =>
    rw [String.toList_eq_nil_iff.mp hc] at hhash
    exact absurd hhash (by decide)
  | cons c cs =>
    -- the dash would be a character of the hash
    have hdash : c = '-' := by
      simp only [String.toList_append, hc, List.cons_append, List.cons.injEq] at hrest
      exact hrest.1.symm
    have hall : isNixBase32 hash = true := by
      simp only [isStoreHash, Bool.and_eq_true] at hhash
      exact hhash.2
    rw [isNixBase32, hc, hdash, List.all_cons, Bool.and_eq_true] at hall
    exact absurd hall.1 (by decide)

/-- `parse_store_hash`: a hash given bare, or the hash of a store path or basename. -/
def parseStoreHash (text : String) : Option String :=
  let base := afterLastSlash (Lib.trimEndMatches '/' text.toList)
  let hash := String.ofList (base.takeWhile (· != '-'))
  if isStoreHash hash then some hash else none

/-! ## Blob keys -/

/-- `key_for`: `nar/<hash>.nar.zst`. -/
def keyFor (hash : String) : String := "nar/" ++ hash ++ ".nar.zst"

/-- `hash_for`: the inverse of `key_for`, `None` outside the layout. -/
def hashFor (key : String) : Option String :=
  let k := key.toList
  let pre := "nar/".toList
  let suf := ".nar.zst".toList
  if pre <+: k ∧ suf <:+ k.drop pre.length then
    let h := (k.drop pre.length).take ((k.drop pre.length).length - suf.length)
    if h.isEmpty then none else some (String.ofList h)
  else none

theorem keyFor_injective {a b : String} (h : keyFor a = keyFor b) : a = b := by
  simpa [keyFor] using h

theorem hashFor_keyFor {h : String} (hne : h ≠ "") : hashFor (keyFor h) = some h := by
  have hlist : (keyFor h).toList = "nar/".toList ++ (h.toList ++ ".nar.zst".toList) := by
    simp [keyFor]
  unfold hashFor
  simp only [hlist]
  rw [if_pos ⟨List.prefix_append _ _, by rw [List.drop_left]; exact List.suffix_append _ _⟩]
  simp only [List.drop_left, List.length_append, Nat.add_sub_cancel, List.take_left]
  rw [if_neg (by simpa using hne)]
  simp

theorem hashFor_eq_some {key h : String} (hk : hashFor key = some h) : key = keyFor h := by
  unfold hashFor at hk
  simp only at hk
  split at hk
  · rename_i hps
    obtain ⟨⟨rest, hpre⟩, ⟨mid, hsuf⟩⟩ := hps
    split at hk
    · exact absurd hk (by simp)
    · have hh := Option.some.inj hk
      rw [← hpre] at hsuf
      rw [List.drop_left] at hsuf
      rw [← hpre, List.drop_left, ← hsuf, List.length_append, Nat.add_sub_cancel,
        List.take_left] at hh
      apply String.toList_injective
      rw [← hpre, ← hsuf, ← hh]
      simp [keyFor]
  · exact absurd hk (by simp)

end Garret
