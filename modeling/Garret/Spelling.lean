import Garret.Lib.Base64
import Garret.Lib.Radix
import Garret.Lib.Utf8
import Garret.Narinfo

/-!
# Spellings of a hash

`nix_base32_encode` writes the numeral of the bytes in base 32, most significant group first
(`nixBase32Value_encode`), so it loses nothing, and `normalize_hash` takes every spelling of a
digest to one (`hash_spellings`). The base64 decoder is a parameter; all that is assumed of it is
that it reads back what an encoder with padding writes (`base64`).
-/

namespace Garret

open Garret.Lib

/-! ## The numeral of the bytes -/

/-- The number whose bytes these are, least significant first. -/
def bytesValue (bytes : Bytes) : ℕ := Nat.ofDigits 256 (bytes.map UInt8.toNat)

/-- The number a text in Nix's base32 spells. -/
def nixBase32Value (s : String) : ℕ :=
  Nat.ofDigits 32 (s.toList.reverse.map fun c => nixBase32Alphabet.idxOf c)

theorem lt_of_mem_toNat {bytes : Bytes} : ∀ x ∈ bytes.map UInt8.toNat, x < 2 ^ 8 := by
  intro x hx
  obtain ⟨b, -, rfl⟩ := List.mem_map.mp hx
  exact b.toNat_lt

theorem getD_toNat (bytes : Bytes) (i : ℕ) :
    (bytes.map UInt8.toNat).getD i 0 = (bytes.getD i 0).toNat := by
  simp only [List.getD_eq_getElem?_getD, List.getElem?_map]
  cases bytes[i]? <;> rfl

theorem ofNat_mod {j : ℕ} (h : j < 8) : (UInt8.ofNat j).toNat % 8 = j := by
  rw [UInt8.toNat_ofNat', Nat.mod_mod_of_dvd _ (by decide), Nat.mod_eq_of_lt h]

/-- The bits a shift pushes past the eighth are not among the lowest five. -/
theorem or_shifted_mod (lo next k : ℕ) :
    (lo ||| next <<< k % 2 ^ 8) % 2 ^ 5 = (lo ||| next <<< k) % 2 ^ 5 := by
  rw [Nat.or_mod_two_pow, Nat.or_mod_two_pow, Nat.mod_mod_of_dvd _ (by decide)]

/-- **A group is a digit of the number**, whichever bytes it straddles. -/
theorem nixBase32Group_toNat (bytes : Bytes) (n : ℕ) :
    (nixBase32Group bytes n).toNat = bytesValue bytes / 32 ^ n % 32 := by
  have hj : n * 5 % 8 < 8 := Nat.mod_lt _ (by decide)
  have hwindow : ((bytes.getD (n * 5 / 8) 0).toNat >>> (n * 5 % 8) |||
      (bytes.getD (n * 5 / 8 + 1) 0).toNat <<< (8 - n * 5 % 8)) % 2 ^ 5 =
        bytesValue bytes / 2 ^ (8 * (n * 5 / 8) + n * 5 % 8) % 2 ^ 5 := by
    have h := @window 8 5 (by decide) (bytes.map UInt8.toNat) lt_of_mem_toNat (n * 5 / 8) _ hj
    rwa [getD_toNat, getD_toNat] at h
  have hplace : 2 ^ (8 * (n * 5 / 8) + n * 5 % 8) = 32 ^ n := by
    rw [Nat.div_add_mod, Nat.mul_comm, Nat.pow_mul]
  have hmask : (0x1f : UInt8).toNat = 2 ^ 5 - 1 := rfl
  rw [hplace] at hwindow
  unfold nixBase32Group
  simp only
  rw [UInt8.toNat_and, hmask, Nat.and_two_pow_sub_one_eq_mod, UInt8.toNat_or,
    UInt8.toNat_shiftRight, ofNat_mod hj]
  refine Eq.trans ?_ hwindow
  by_cases hzero : n * 5 % 8 = 0
  · -- aligned to a byte: the next one would only fill bits from the eighth on
    have hpast : (bytes.getD (n * 5 / 8 + 1) 0).toNat <<< (8 - 0) % 2 ^ 8 = 0 := by
      rw [Nat.shiftLeft_eq, Nat.mul_mod_left]
    rw [if_pos hzero, hzero, ← or_shifted_mod, hpast]
    rfl
  · have hk : 8 - n * 5 % 8 < 8 := by omega
    rw [if_neg hzero, UInt8.toNat_shiftLeft, ofNat_mod hk, or_shifted_mod]

theorem nixBase32Group_lt (bytes : Bytes) (n : ℕ) :
    (nixBase32Group bytes n).toNat < nixBase32Alphabet.length := by
  rw [nixBase32Group_toNat]
  exact Nat.mod_lt _ (by decide)

/-- There are enough groups for all bytes. -/
theorem bytesValue_lt (bytes : Bytes) : bytesValue bytes < 32 ^ nixBase32Len bytes.length := by
  have hlt : bytesValue bytes < 256 ^ (bytes.map UInt8.toNat).length :=
    Nat.ofDigits_lt_base_pow_length (by decide) lt_of_mem_toNat
  have hle : 8 * bytes.length ≤ 5 * nixBase32Len bytes.length := by
    unfold nixBase32Len
    split
    · omega
    · omega
  calc bytesValue bytes < 256 ^ (bytes.map UInt8.toNat).length := hlt
    _ = 2 ^ (8 * bytes.length) := by rw [List.length_map, Nat.pow_mul]
    _ ≤ 2 ^ (5 * nixBase32Len bytes.length) := Nat.pow_le_pow_right (by decide) hle
    _ = 32 ^ nixBase32Len bytes.length := by rw [Nat.pow_mul]

/-- Bytes are known from their number and how many they are. -/
theorem bytesValue_inj {a b : Bytes} (hlen : a.length = b.length)
    (h : bytesValue a = bytesValue b) : a = b := by
  have hmap : a.map UInt8.toNat = b.map UInt8.toNat :=
    Nat.ofDigits_inj_of_len_eq (b := 256) (by decide) (by simpa using hlen) lt_of_mem_toNat
      lt_of_mem_toNat h
  exact List.map_injective_iff.mpr (fun _ _ => UInt8.toNat_inj.mp) hmap

/-! ## The encoding -/

theorem toList_nixBase32Encode (bytes : Bytes) : (nixBase32Encode bytes).toList =
    (List.range (nixBase32Len bytes.length)).reverse.map fun n =>
      nixBase32Alphabet.getD (nixBase32Group bytes n).toNat '0' :=
  String.toList_ofList

theorem length_nixBase32Encode (bytes : Bytes) :
    (nixBase32Encode bytes).length = nixBase32Len bytes.length := by
  rw [← String.length_toList, toList_nixBase32Encode]
  simp

/-- A digit is read back from its character. -/
theorem idxOf_alphabet {d : ℕ} (h : d < nixBase32Alphabet.length) :
    nixBase32Alphabet.idxOf (nixBase32Alphabet.getD d '0') = d := by
  have hnodup : nixBase32Alphabet.Nodup := by decide
  rw [← List.getElem_eq_getD (h := h), hnodup.idxOf_getElem]

/-- **The encoding spells the number of the bytes.** -/
theorem nixBase32Value_encode (bytes : Bytes) :
    nixBase32Value (nixBase32Encode bytes) = bytesValue bytes := by
  have hdigits : (nixBase32Encode bytes).toList.reverse.map (fun c => nixBase32Alphabet.idxOf c) =
      (List.range (nixBase32Len bytes.length)).map fun n => bytesValue bytes / 32 ^ n % 32 := by
    rw [toList_nixBase32Encode, ← List.map_reverse, List.reverse_reverse, List.map_map]
    refine List.map_congr_left fun n _ => ?_
    rw [Function.comp_apply, idxOf_alphabet (nixBase32Group_lt bytes n), nixBase32Group_toNat]
  unfold nixBase32Value
  rw [hdigits, ofDigits_map_range _ (bytesValue_lt bytes)]

/-- **It loses nothing.** -/
theorem nixBase32Encode_inj {a b : Bytes} (hlen : a.length = b.length)
    (h : nixBase32Encode a = nixBase32Encode b) : a = b := by
  apply bytesValue_inj hlen
  rw [← nixBase32Value_encode, ← nixBase32Value_encode, h]

/-! ## What could stop it -/

theorem group_byte_lt {bytes : Bytes} {n : ℕ} (h : n < nixBase32Len bytes.length) :
    n * 5 / 8 < bytes.length := by
  unfold nixBase32Len at h
  split at h
  · omega
  · omega

theorem nixBase32Carry?_eq {j : ℕ} (h : j < 8) (next : Option UInt8) :
    nixBase32Carry? j next =
      some (if j = 0 then 0 else next.getD 0 <<< UInt8.ofNat (8 - j)) := by
  cases j with
  | zero => rfl
  | succ j =>
    have hk : 8 - (j + 1) < 8 := by omega
    rw [if_neg (Nat.succ_ne_zero j)]
    cases next with
    | none => rw [nixBase32Carry?, Option.getD_none, UInt8.zero_shiftLeft]; simp
    | some next => exact if_pos hk

/-- Every group there is has its first byte, and shifts by less than a byte. -/
theorem nixBase32Group?_eq {bytes : Bytes} {n : ℕ} (h : n < nixBase32Len bytes.length) :
    nixBase32Group? bytes n = some (nixBase32Group bytes n) := by
  have hi := group_byte_lt h
  have hj : n * 5 % 8 < 8 := Nat.mod_lt _ (by decide)
  have hbyte : bytes[n * 5 / 8]? = some (bytes.getD (n * 5 / 8) 0) := by
    rw [List.getElem?_eq_getElem hi, List.getElem_eq_getD]
  have hlo : shr? (bytes.getD (n * 5 / 8) 0) (n * 5 % 8) =
      some (bytes.getD (n * 5 / 8) 0 >>> UInt8.ofNat (n * 5 % 8)) := if_pos hj
  unfold nixBase32Group? nixBase32Group
  simp only [hbyte, hlo, nixBase32Carry?_eq hj, Option.bind_eq_bind, Option.bind_some]
  rfl

theorem mapM_eq_some {α β : Type} {f : α → Option β} {g : α → β} :
    ∀ {l : List α}, (∀ x ∈ l, f x = some (g x)) → l.mapM f = some (l.map g)
  | [], _ => rfl
  | x :: l, h => by
    rw [List.mapM_cons, h x List.mem_cons_self,
      mapM_eq_some fun y hy => h y (List.mem_cons_of_mem _ hy)]
    rfl

/-- **Nothing stops the encoder.** -/
theorem nixBase32Encode?_eq (bytes : Bytes) :
    nixBase32Encode? bytes = some (nixBase32Encode bytes) := by
  have hchar : ∀ n ∈ (List.range (nixBase32Len bytes.length)).reverse,
      (nixBase32Group? bytes n).bind (fun group => nixBase32Alphabet[group.toNat]?) =
        some (nixBase32Alphabet.getD (nixBase32Group bytes n).toNat '0') := by
    intro n hn
    rw [List.mem_reverse, List.mem_range] at hn
    have hlt := nixBase32Group_lt bytes n
    rw [nixBase32Group?_eq hn, Option.bind_some, List.getElem?_eq_getElem hlt, List.getElem_eq_getD]
  unfold nixBase32Encode? nixBase32Encode
  simp only [Option.bind_eq_bind, mapM_eq_some hchar, Option.bind_some]
  rfl

/-! ## One spelling for all -/

/-- A digest in base64, as an encoder with padding writes it. -/
def base64 (digest : Bytes) : String := String.ofList (Base64.encode digest)

/-- A digest is 52 bytes of base32. -/
theorem utf8ByteSize_nixBase32Encode {bytes : Bytes} (h : bytes.length = 32) :
    (nixBase32Encode bytes).utf8ByteSize = nixBase32Len 32 := by
  rw [utf8ByteSize_of_base32 (isNixBase32_encode bytes), length_nixBase32Encode, h]

variable {decodeB64 : String → Option Bytes}

/-- **What is normalised is `sha256:` and 52 characters of base32.** -/
theorem normalizeHash_ok {hash out : String} (h : normalizeHash decodeB64 hash = .ok out) :
    ∃ digest, out = "sha256:" ++ digest ∧ digest.utf8ByteSize = nixBase32Len 32 ∧
      isNixBase32 digest = true := by
  unfold normalizeHash at h
  split at h
  · exact absurd h (by simp)
  · rename_i digest _
    split at h
    · rename_i hd
      exact ⟨digest, (Except.ok.inj h).symm, hd⟩
    · split at h
      · exact absurd h (by simp)
      · rename_i bytes _
        split at h
        · exact absurd h (by simp)
        · rename_i hlen
          exact ⟨nixBase32Encode bytes, (Except.ok.inj h).symm,
            utf8ByteSize_nixBase32Encode (not_ne_iff.mp hlen), isNixBase32_encode bytes⟩

/-- The two prefixes a hash may have. -/
def hashPrefixes : List String := ["sha256-", "sha256:"]

/-- Either is cut off. -/
theorem strip_hashPrefixes {pre : String} (h : pre ∈ hashPrefixes) (digest : String) :
    ((stripPrefix "sha256:" (pre ++ digest)).orElse fun _ =>
      stripPrefix "sha256-" (pre ++ digest)) = some digest := by
  simp only [hashPrefixes, List.mem_cons, List.not_mem_nil, or_false] at h
  rcases h with rfl | rfl
  · have hnone : stripPrefix "sha256:" ("sha256-" ++ digest) = none := by
      rw [Option.eq_none_iff_forall_ne_some]
      intro rest hrest
      have htext := congrArg String.toList (stripPrefix_eq_some.mp hrest)
      simp at htext
    rw [hnone, stripPrefix_eq_some.mpr rfl]
    rfl
  · rw [stripPrefix_eq_some.mpr rfl]
    rfl

/-- A digest in base32 stays as it is spelled. -/
theorem normalizeHash_base32 {pre digest : String} (hpre : pre ∈ hashPrefixes)
    (hsize : digest.utf8ByteSize = nixBase32Len 32) (hdigest : isNixBase32 digest = true) :
    normalizeHash decodeB64 (pre ++ digest) = .ok ("sha256:" ++ digest) := by
  unfold normalizeHash
  rw [strip_hashPrefixes hpre]
  exact if_pos ⟨hsize, hdigest⟩

/-- A digest in base64 is too short to be taken for base32. -/
theorem normalizeHash_base64 {pre : String} (hpre : pre ∈ hashPrefixes) {digest : Bytes}
    (hlen : digest.length = 32) (hdecode : decodeB64 (base64 digest) = some digest) :
    normalizeHash decodeB64 (pre ++ base64 digest) = .ok (sha256Nix32 digest) := by
  have hnot : ¬ ((base64 digest).utf8ByteSize = nixBase32Len 32 ∧
      isNixBase32 (base64 digest) = true) := by
    rintro ⟨hsize, hbase⟩
    rw [utf8ByteSize_of_base32 hbase, base64, String.length_ofList, Base64.length_encode,
      hlen] at hsize
    exact absurd hsize (by decide)
  unfold normalizeHash
  rw [strip_hashPrefixes hpre]
  simp only [if_neg hnot, hdecode, hlen, ne_eq, not_true_eq_false, if_false]

/-- **Hash spellings normalise canonically**: the encoder is total and injective, every spelling of
a digest becomes the one Nix signs over, and that one stays. -/
theorem hash_spellings (decodeB64 : String → Option Bytes)
    (hdecode : ∀ bytes, decodeB64 (base64 bytes) = some bytes) :
    (∀ bytes : Bytes, nixBase32Encode? bytes = some (nixBase32Encode bytes) ∧
      (nixBase32Encode bytes).length = nixBase32Len bytes.length ∧
      isNixBase32 (nixBase32Encode bytes) = true) ∧
    (∀ a b : Bytes, a.length = b.length → nixBase32Encode a = nixBase32Encode b → a = b) ∧
    (∀ d : Bytes, d.length = 32 → ∀ pre ∈ hashPrefixes,
      normalizeHash decodeB64 (pre ++ base64 d) = .ok (sha256Nix32 d) ∧
      normalizeHash decodeB64 (pre ++ nixBase32Encode d) = .ok (sha256Nix32 d)) ∧
    (∀ d d' : Bytes, d.length = 32 → d'.length = 32 → d ≠ d' → sha256Nix32 d ≠ sha256Nix32 d') ∧
    ∀ hash out, normalizeHash decodeB64 hash = .ok out → normalizeHash decodeB64 out = .ok out := by
  refine ⟨fun bytes => ?_, fun a b => nixBase32Encode_inj, ?_, ?_, ?_⟩
  · exact ⟨nixBase32Encode?_eq bytes, length_nixBase32Encode bytes, isNixBase32_encode bytes⟩
  · intro d hd pre hpre
    refine ⟨normalizeHash_base64 hpre hd (hdecode d), ?_⟩
    exact normalizeHash_base32 hpre (utf8ByteSize_nixBase32Encode hd) (isNixBase32_encode d)
  · intro d d' hd hd' hne heq
    have hencode : nixBase32Encode d = nixBase32Encode d' := by
      simpa [sha256Nix32] using heq
    exact hne (nixBase32Encode_inj (hd.trans hd'.symm) hencode)
  · intro hash out h
    obtain ⟨digest, rfl, hsize, hdigest⟩ := normalizeHash_ok h
    exact normalizeHash_base32 (by simp [hashPrefixes]) hsize hdigest

/-- The sha256 of nothing. -/
def emptyDigest : Bytes :=
  [0xe3, 0xb0, 0xc4, 0x42, 0x98, 0xfc, 0x1c, 0x14, 0x9a, 0xfb, 0xf4, 0xc8, 0x99, 0x6f, 0xb9, 0x24,
    0x27, 0xae, 0x41, 0xe4, 0x64, 0x9b, 0x93, 0x4c, 0xa4, 0x95, 0x99, 0x1b, 0x78, 0x52, 0xb8, 0x55]

/-- Its two spellings, with a decoder that takes what the encoder writes. -/
theorem hash_spellings_empty :
    normalizeHash (fun text => Base64.decode text.toList)
        "sha256-47DEQpj8HBSa+/TImW+5JCeuQeRkm5NMpJWZG3hSuFU=" =
      .ok "sha256:0mdqa9w1p6cmli6976v4wi0sw9r4p5prkj7lzfd1877wk11c9c73" := by
  have hdecode : ∀ bytes, Base64.decode (base64 bytes).toList = some bytes := by
    intro bytes
    rw [base64, String.toList_ofList, Base64.decode_encode]
  have hspelled : base64 emptyDigest = "47DEQpj8HBSa+/TImW+5JCeuQeRkm5NMpJWZG3hSuFU=" := by decide
  have hbase32 : sha256Nix32 emptyDigest =
      "sha256:0mdqa9w1p6cmli6976v4wi0sw9r4p5prkj7lzfd1877wk11c9c73" := by decide
  have h := ((hash_spellings (fun text => Base64.decode text.toList) hdecode).2.2.1
    emptyDigest rfl "sha256-" (by decide)).1
  rwa [hspelled, hbase32] at h

end Garret
