import Garret.Upload.Exact

/-!
# Which claimed sizes are checked exactly

`feed` adds the output of a call to `nar_size` and compares after: the sum may pass the claim by a
whole buffer. So the check is exact, however the body was split, when that sum still fits an `i64`
(`checksExactly_iff`); past it a body of whole buffers takes the counter to 2⁶³, which panics or
wraps and is not stopped at the claim.
-/

namespace Garret

/-- What the check of a claimed size owes: no sum leaves `i64`, it ends on every chunk, and it
accepts exactly the bodies of the claim. -/
def ChecksExactly (claimed : Int) : Prop :=
  ∀ (δ : Type) (z : Decoder δ) (Frame : Bytes → Bytes → Prop) (At : δ → Bytes → Bytes → Prop),
    z.Lawful Frame At → ∀ (sha256 : Bytes → Bytes) (hash : String) (chunks : List Bytes),
    (∀ fuel, ∀ s ∈ (z.verdict sha256 fuel chunks hash claimed).2, IsI64 s) ∧
    ∃ enough, ∀ fuel ≥ enough, ∃ v, (z.verdict sha256 fuel chunks hash claimed).1 = some v ∧
      (v = .ok () ↔ z.Accepts Frame sha256 hash claimed chunks.flatten)

/-- With room for one more buffer the check is exact. -/
theorem checksExactly_of_le {claimed : Int} (h : IsI64 claimed)
    (hle : claimed ≤ i64Max - scratch) : ChecksExactly claimed := by
  intro δ z Frame At hz sha256 hash chunks
  have hspec := verdict_spec hz h hle sha256 hash
  refine ⟨fun fuel => (hspec fuel chunks).sums, chunks.flatten.length + claimed.toNat + 2, ?_⟩
  intro fuel hfuel
  obtain ⟨v, hv⟩ := (hspec fuel chunks).ends hfuel
  refine ⟨v, hv, ?_⟩
  cases v with
  | ok u => exact ⟨fun _ => (hspec fuel chunks).ok u hv, fun _ => rfl⟩
  | error e =>
    exact ⟨fun hok => (nomatch hok), fun hacc => absurd hacc ((hspec fuel chunks).error e hv)⟩

/-! ## Bodies of whole buffers -/

/-- The zeros. -/
def zeros (n : ℕ) : Bytes := List.replicate n 0

theorem zeros_append (m n : ℕ) : zeros m ++ zeros n = zeros (m + n) := by
  simp only [zeros, List.replicate_add]

theorem length_zeros (n : ℕ) : (zeros n).length = n := List.length_replicate

/-- A decoder to which every byte is a frame of `scratch` zeros; its state is what it has yet to
put out. -/
def blocks : Decoder ℕ where
  init := 0
  run pending src room :=
    if 0 < pending then
      .ok ⟨pending - min pending room, 0, zeros (min pending room), pending - min pending room⟩
    else if src = [] then .ok ⟨0, 0, [], 1⟩
    else .ok ⟨scratch - min scratch room, 1, zeros (min scratch room), scratch - min scratch room⟩
  compressBound := zstdCompressBound

/-- One byte. -/
def IsBlock (x y : Bytes) : Prop := x.length = 1 ∧ y = zeros scratch

/-- All but the pending output is out. -/
def AtBlock (pending : ℕ) (x y : Bytes) : Prop :=
  ∃ n, y = zeros n ∧ n + pending = x.length * scratch

theorem flatten_blocks {fs : List (Bytes × Bytes)} (h : ∀ f ∈ fs, IsBlock f.1 f.2) :
    (fs.map Prod.fst).flatten.length = fs.length ∧
      (fs.map Prod.snd).flatten = zeros (fs.length * scratch) := by
  induction fs with
  | nil => simp [zeros]
  | cons f fs ih =>
    obtain ⟨hf, hfs⟩ := List.forall_mem_cons.mp h
    obtain ⟨hx, hy⟩ := ih hfs
    constructor
    · rw [List.map_cons, List.flatten_cons, List.length_append, hf.1, hx, List.length_cons]
      omega
    · rw [List.map_cons, List.flatten_cons, hf.2, hy, zeros_append, List.length_cons,
        Nat.add_mul, Nat.one_mul, Nat.add_comm]

theorem blocks_flatten (x : Bytes) :
    (x.map fun b => [b]).flatten = x ∧
      (x.map fun _ => zeros scratch).flatten = zeros (x.length * scratch) := by
  induction x with
  | nil => simp [zeros]
  | cons b x ih =>
    constructor
    · rw [List.map_cons, List.flatten_cons, ih.1, List.singleton_append]
    · rw [List.map_cons, List.flatten_cons, ih.2, zeros_append, List.length_cons,
        Nat.add_mul, Nat.one_mul, Nat.add_comm]

theorem frames_isBlock {x y : Bytes} :
    Frames IsBlock x y ↔ x ≠ [] ∧ y = zeros (x.length * scratch) := by
  constructor
  · rintro ⟨fs, hne, hall, rfl, rfl⟩
    obtain ⟨hx, hy⟩ := flatten_blocks hall
    refine ⟨fun hnil => hne ?_, hx ▸ hy⟩
    rw [hnil] at hx
    exact List.length_eq_zero_iff.mp hx.symm
  · rintro ⟨hne, rfl⟩
    obtain ⟨hx, hy⟩ := blocks_flatten x
    refine ⟨x.map fun b => ([b], zeros scratch), by simpa using hne, ?_, ?_, ?_⟩
    · intro f hf
      obtain ⟨b, -, rfl⟩ := List.mem_map.mp hf
      exact ⟨rfl, rfl⟩
    · rw [List.map_map]
      exact hx.symm
    · rw [List.map_map]
      exact hy.symm

/-- What a call can do: go on with the pending output, idle, or take a byte. -/
theorem blocks_run {pending room : ℕ} {src : Bytes} {r : Ran ℕ}
    (h : blocks.run pending src room = .ok r) :
    (0 < pending ∧ r = ⟨pending - min pending room, 0, zeros (min pending room),
        pending - min pending room⟩) ∨
      (pending = 0 ∧ src = [] ∧ r = ⟨0, 0, [], 1⟩) ∨
      (pending = 0 ∧ src ≠ [] ∧ r = ⟨scratch - min scratch room, 1, zeros (min scratch room),
        scratch - min scratch room⟩) := by
  simp only [blocks] at h
  split at h
  · rename_i hpos
    exact Or.inl ⟨hpos, (Except.ok.inj h).symm⟩
  · rename_i hidle
    split at h
    · rename_i hsrc
      exact Or.inr (Or.inl ⟨by omega, hsrc, (Except.ok.inj h).symm⟩)
    · rename_i hsrc
      exact Or.inr (Or.inr ⟨by omega, hsrc, (Except.ok.inj h).symm⟩)

/-- Between calls the output is that of the bytes taken, less what is pending. -/
theorem blocks_at {pending room : ℕ} {x y src : Bytes} {r : Ran ℕ} (h : AtBlock pending x y)
    (hrun : blocks.run pending src room = .ok r) :
    r.consumed ≤ src.length ∧ r.out.length ≤ room ∧
      AtBlock r.state (x ++ src.take r.consumed) (y ++ r.out) := by
  obtain ⟨n, rfl, hn⟩ := h
  rcases blocks_run hrun with ⟨-, rfl⟩ | ⟨rfl, rfl, rfl⟩ | ⟨rfl, hsrc, rfl⟩
  · refine ⟨Nat.zero_le _, by simp [length_zeros], n + min pending room, zeros_append _ _, ?_⟩
    simp only [List.take_zero, List.append_nil]
    omega
  · exact ⟨Nat.zero_le _, Nat.zero_le _, n, List.append_nil _, by simpa using hn⟩
  · have hpos := List.length_pos_iff.mpr hsrc
    refine ⟨hpos, by simp [length_zeros], n + min scratch room, zeros_append _ _, ?_⟩
    simp only
    rw [List.length_append, List.length_take_of_le hpos, Nat.add_mul, ← hn]
    omega

theorem AtBlock.frames_iff {pending : ℕ} {x y : Bytes} (h : AtBlock pending x y) :
    Frames IsBlock x y ↔ x ≠ [] ∧ pending = 0 := by
  obtain ⟨n, rfl, hn⟩ := h
  rw [frames_isBlock]
  refine and_congr_right fun _ => ⟨fun heq => ?_, ?_⟩
  · have hlen := congrArg List.length heq
    rw [length_zeros, length_zeros] at hlen
    omega
  · rintro rfl
    rw [← hn, Nat.add_zero]

theorem blocks_lawful : blocks.Lawful IsBlock AtBlock where
  frame_ne h := by
    rintro rfl
    cases h.1
  at_init := ⟨0, rfl, rfl⟩
  run_at h hrun := blocks_at h hrun
  malformed _ hrun := by
    simp only [blocks] at hrun
    split at hrun
    · cases hrun
    · split at hrun <;> cases hrun
  progress _ hrun hsrc hroom := by
    rcases blocks_run hrun with ⟨hpos, rfl⟩ | ⟨-, hnil, -⟩ | ⟨-, -, rfl⟩
    · right
      have : 0 < min _ _ := lt_min hpos hroom
      exact List.ne_nil_of_length_pos (by rwa [length_zeros])
    · exact absurd hnil hsrc
    · exact Or.inl Nat.one_pos
  boundary {d x y src room r} h hrun hprog := by
    rw [(blocks_at h hrun).2.2.frames_iff]
    rcases blocks_run hrun with ⟨hpos, rfl⟩ | ⟨-, -, rfl⟩ | ⟨-, hsrc, rfl⟩
    · obtain ⟨n, -, hn⟩ := h
      have hx : x ≠ [] := by
        rintro rfl
        simp only [List.length_nil, Nat.zero_mul] at hn
        omega
      exact (and_iff_right (List.append_ne_nil_of_left_ne_nil hx _)).symm
    · exact absurd hprog (by simp)
    · have htake : src.take 1 ≠ [] := by simpa using hsrc
      exact (and_iff_right (List.append_ne_nil_of_right_ne_nil _ htake)).symm
  output {d x y rest w} h hw := by
    obtain ⟨n, rfl, hn⟩ := h
    obtain ⟨-, rfl⟩ := frames_isBlock.mp hw
    refine ⟨zeros (d + rest.length * scratch), ?_⟩
    rw [zeros_append, List.length_append, Nat.add_mul, ← hn, Nat.add_assoc]
  flushed {d x y src room r w} h hrun hall hroom hw := by
    obtain ⟨n, hout, hn⟩ := (blocks_at h hrun).2.2
    rw [hall, List.take_length] at hn
    have hdone : r.state = 0 := by
      rcases blocks_run hrun with ⟨-, rfl⟩ | ⟨-, -, rfl⟩ | ⟨-, -, rfl⟩
      all_goals
        simp only [length_zeros] at hroom ⊢
        try omega
    rw [hout, (frames_isBlock.mp hw).2, ← hn, hdone, Nat.add_zero]
  compressBound _ := rfl

/-- **Every call adds a buffer**: a body of `m` bytes has the sum of `m` more buffers. -/
theorem blocks_sum {m j fuel : ℕ} {c : Checker ℕ} (hm : 0 < m) (hfuel : m ≤ fuel)
    (hidle : c.decoder = 0) (hj : c.narSize = (j * scratch : ℕ))
    (hroom : (((j + m - 1) * scratch : ℕ) : Int) ≤ c.claimedSize)
    (hi64 : c.claimedSize ≤ i64Max) :
    (((j + m) * scratch : ℕ) : Int) ∈ (blocks.feedLoop fuel c (zeros m)).2 := by
  induction m generalizing j fuel c with
  | zero => cases hm
  | succ m ih =>
    obtain ⟨fuel, rfl⟩ : ∃ f, fuel = f + 1 := ⟨fuel - 1, by omega⟩
    have hrun : blocks.run c.decoder (zeros (m + 1)) scratch = .ok ⟨0, 1, zeros scratch, 0⟩ := by
      rw [hidle]
      rfl
    have hsum : c.narSize + ((zeros scratch).length : Int) = ((j + 1) * scratch : ℕ) := by
      rw [hj, length_zeros, Nat.add_mul, Nat.one_mul]
      exact (Nat.cast_add _ _).symm
    rw [Decoder.feedLoop, hrun]
    simp only [hsum]
    by_cases hlast : m = 0
    · -- the last byte: this is the sum, whatever comes of it
      subst hlast
      split
      · exact List.mem_singleton.mpr rfl
      · split
        · exact List.mem_singleton.mpr rfl
        · exact List.mem_cons_self
    · have hmore : (j + 1) * scratch ≤ (j + (m + 1) - 1) * scratch :=
        Nat.mul_le_mul_right _ (by omega)
      have hwrap : wrapI64 ((j + 1) * scratch : ℕ) = ((j + 1) * scratch : ℕ) := by
        refine wrapI64_of_lt ?_
        simp only [i64Max] at hi64
        omega
      have hfull : ¬ (zeros scratch).length < scratch := (length_zeros scratch).not_lt
      have hle : ¬ c.claimedSize < ((j + 1) * scratch : ℕ) :=
        ((Int.ofNat_le.mpr hmore).trans hroom).not_gt
      rw [hwrap, if_neg hle, if_neg fun hdone => hfull hdone.2]
      have hnext := @ih (j + 1) fuel
        { c with
          decoder := 0
          narSize := ((j + 1) * scratch : ℕ)
          hashed := c.hashed ++ zeros scratch
          frameDone := if 0 < 1 ∨ zeros scratch ≠ [] then (0 : ℕ) == 0 else c.frameDone }
        (by omega) (by omega) rfl rfl ?_ hi64
      · refine List.mem_cons_of_mem _ ?_
        rw [Nat.add_right_comm, Nat.add_assoc] at hnext
        exact hnext
      · rw [show j + 1 + m - 1 = j + (m + 1) - 1 by omega]
        exact hroom

/-- The sums of the first chunk are among those of the check. -/
theorem mem_verdict {δ : Type} {z : Decoder δ} {sha256 : Bytes → Bytes} {hash : String}
    {size n : Int} {fuel : ℕ} {chunk : Bytes} {chunks : List Bytes}
    (h : n ∈ (z.feed fuel (z.checker hash size) chunk).2) :
    n ∈ (z.verdict sha256 fuel (chunk :: chunks) hash size).2 := by
  have hall : n ∈ (z.feedAll fuel (z.checker hash size) (chunk :: chunks)).2 := by
    rw [Decoder.feedAll]
    split
    · rename_i heq
      rw [heq] at h
      exact List.mem_append_left _ h
    · rename_i heq
      rwa [heq] at h
  unfold Decoder.verdict
  split
  all_goals
    rename_i heq
    rw [heq] at hall
    exact hall

/-- Without room for one more buffer there is a body that takes the counter to 2⁶³. -/
theorem not_checksExactly {claimed : Int} (h : IsI64 claimed) (hlt : i64Max - scratch < claimed) :
    ¬ ChecksExactly claimed := by
  intro hexact
  obtain ⟨m, hm⟩ : ∃ m : ℕ, m = 2 ^ 46 := ⟨_, rfl⟩
  obtain ⟨hsums, -⟩ := hexact ℕ blocks IsBlock AtBlock blocks_lawful id "" [zeros m]
  simp only [IsI64, i64Min, i64Max, scratch] at h hlt hsums
  have hbound : blocks.maxCompressedLen claimed =
      satAdd (zstdCompressBound (max claimed 0).toNat) compressedSlack := rfl
  have hfits : ¬ (blocks.maxCompressedLen claimed < satAdd 0 (zeros m).length) := by
    rw [length_zeros, hbound]
    unfold satAdd zstdCompressBound
    omega
  have hmem : (((0 + m) * scratch : ℕ) : Int) ∈
      (blocks.verdict id m [zeros m] "" claimed).2 := by
    have hfeed : blocks.feed m (blocks.checker "" claimed) (zeros m) = blocks.feedLoop m
        { blocks.checker "" claimed with compressed := satAdd 0 (zeros m).length } (zeros m) :=
      if_neg hfits
    refine mem_verdict ?_
    rw [hfeed]
    have hstart : (0 : Int) = ((0 * scratch : ℕ) : Int) := by rw [Nat.zero_mul, Nat.cast_zero]
    refine blocks_sum (by omega) le_rfl rfl hstart ?_ h.2
    change _ ≤ claimed
    simp only [scratch]
    omega
  have hover := (hsums m _ hmem).2
  simp only [scratch] at hover
  omega

/-- **The check is exact for every claimed size that leaves room for one more buffer**, and for no
other. -/
theorem checksExactly_iff {claimed : Int} (h : IsI64 claimed) :
    ChecksExactly claimed ↔ claimed ≤ i64Max - scratch := by
  refine ⟨fun hexact => ?_, checksExactly_of_le h⟩
  by_contra hlt
  exact not_checksExactly h (by omega) hexact

theorem checksExactly_page : ChecksExactly 4096 :=
  (checksExactly_iff (by decide)).mpr (by decide)

/-- The largest claim lets a bomb through. -/
theorem not_checksExactly_max : ¬ ChecksExactly 9223372036854775807 :=
  not_checksExactly (by decide) (by decide)

end Garret
