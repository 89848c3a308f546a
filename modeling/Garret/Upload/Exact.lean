import Garret.Integer
import Garret.Upload.Verify

/-!
# The NAR check over any decoder

`Checker` (`crates/garret-pusher/src/verify.rs`) over a streaming decoder of which only the
documented behaviour is known (`Decoder.Lawful`), for streams of any length. What a frame is stays a
parameter: `Frame x y` says that `x` is one complete zstd frame within the window limit, a skippable
one included, and decompresses to `y`.

* The loop of `feed` runs as long as its fuel lasts, and records what each call adds up
  (`self.nar_size += out.len() as i64`) before the sum wraps.
* `Checker.Mid` holds between two calls of the decoder, `Checker.Fed` between two chunks: the output
  so far is the output of the frames so far.

`feedLoop_spec` is all a chunk can do; `feed_eq` says that this check is that of `Zstd`.
-/

namespace Garret

/-- The streaming decoder: its state, and `Decoder::run`. -/
structure Decoder (δ : Type) where
  init : δ
  run : δ → Bytes → ℕ → Except String (Ran δ)
  compressBound : ℕ → ℕ

/-- `x` is a nonempty sequence of complete frames, and `y` their output. -/
def Frames (Frame : Bytes → Bytes → Prop) (x y : Bytes) : Prop :=
  ∃ fs : List (Bytes × Bytes), fs ≠ [] ∧ (∀ f ∈ fs, Frame f.1 f.2) ∧
    x = (fs.map Prod.fst).flatten ∧ y = (fs.map Prod.snd).flatten

/-- `ZSTD_COMPRESSBOUND`. -/
def zstdCompressBound (n : ℕ) : ℕ := n + n / 256 + (131072 - n) / 2048

/-- What is documented of the decoder. `At d x y`: in state `d` it has consumed `x` and produced
`y`. -/
structure Decoder.Lawful {δ : Type} (z : Decoder δ) (Frame : Bytes → Bytes → Prop)
    (At : δ → Bytes → Bytes → Prop) : Prop where
  /-- A frame has a header. -/
  frame_ne : ∀ {x y}, Frame x y → x ≠ []
  at_init : At z.init [] []
  run_at : ∀ {d x y src room r}, At d x y → z.run d src room = .ok r →
    r.consumed ≤ src.length ∧ r.out.length ≤ room ∧
      At r.state (x ++ src.take r.consumed) (y ++ r.out)
  /-- Only malformed input is an error. -/
  malformed : ∀ {d x y src room e}, At d x y → z.run d src room = .error e →
    ∀ rest w, ¬ Frames Frame (x ++ src ++ rest) w
  /-- With input and room for output a call makes progress. -/
  progress : ∀ {d x y src room r}, At d x y → z.run d src room = .ok r → src ≠ [] → 0 < room →
    0 < r.consumed ∨ r.out ≠ []
  /-- A call that makes progress returns 0 exactly at a frame boundary with everything flushed. -/
  boundary : ∀ {d x y src room r}, At d x y → z.run d src room = .ok r →
    0 < r.consumed ∨ r.out ≠ [] →
    (r.hint = 0 ↔ Frames Frame (x ++ src.take r.consumed) (y ++ r.out))
  /-- The output comes in order. -/
  output : ∀ {d x y rest w}, At d x y → Frames Frame (x ++ rest) w → y <+: w
  /-- A call that leaves room in its output has flushed all it can. -/
  flushed : ∀ {d x y src room r w}, At d x y → z.run d src room = .ok r →
    r.consumed = src.length → r.out.length < room → Frames Frame (x ++ src) w → y ++ r.out = w
  /-- `ZSTD_compressBound`, below the largest input it has one for. -/
  compressBound : ∀ {n : ℕ}, n < 2 ^ 63 → z.compressBound n = zstdCompressBound n

namespace Decoder

section

variable {δ : Type} (z : Decoder δ) (sha256 : Bytes → Bytes)

/-- `max_compressed_len`. -/
def maxCompressedLen (claimedSize : Int) : ℕ :=
  satAdd (z.compressBound (max claimedSize 0).toNat) compressedSlack

/-- `Checker::new`. -/
def checker (claimedHash : String) (claimedSize : Int) : Checker δ where
  decoder := z.init
  hashed := []
  narSize := 0
  compressed := 0
  maxCompressed := z.maxCompressedLen claimedSize
  frameDone := false
  claimedHash := claimedHash
  claimedSize := claimedSize

/-- The loop of `feed` over the rest of a chunk: its result, unless the fuel runs out, and the sums
it computed. -/
def feedLoop : ℕ → Checker δ → Bytes → Option (Except String (Checker δ)) × List Int
  | 0, _, _ => (none, [])
  | fuel + 1, c, src =>
    match z.run c.decoder src scratch with
    | .error e => (some (.error ("NAR is not a valid zstd stream: " ++ e)), [])
    | .ok r =>
      let sum := c.narSize + r.out.length
      if c.claimedSize < wrapI64 sum then
        (some (.error ("NAR is larger than its claimed NarSize " ++ toString c.claimedSize)), [sum])
      else
        let c := { c with
          decoder := r.state
          narSize := wrapI64 sum
          hashed := c.hashed ++ r.out
          -- an idle call at a frame boundary says nothing about the frame
          frameDone := if 0 < r.consumed ∨ r.out ≠ [] then r.hint == 0 else c.frameDone }
        let src := src.drop r.consumed
        if src = [] ∧ r.out.length < scratch then (some (.ok c), [sum])
        else
          let rest := feedLoop fuel c src
          (rest.1, sum :: rest.2)

/-- `Checker::feed`. -/
def feed (fuel : ℕ) (c : Checker δ) (chunk : Bytes) :
    Option (Except String (Checker δ)) × List Int :=
  let compressed := satAdd c.compressed chunk.length
  if c.maxCompressed < compressed then
    (some (.error ("compressed body exceeds " ++ toString c.maxCompressed ++
      " bytes, the zstd bound for the claimed NarSize " ++ toString c.claimedSize)), [])
  else z.feedLoop fuel { c with compressed := compressed } chunk

/-- One chunk after the other, up to the first that is refused. -/
def feedAll (fuel : ℕ) : Checker δ → List Bytes → Option (Except String (Checker δ)) × List Int
  | c, [] => (some (.ok c), [])
  | c, chunk :: chunks =>
    match z.feed fuel c chunk with
    | (some (.ok c), sums) =>
      let rest := feedAll fuel c chunks
      (rest.1, sums ++ rest.2)
    | (res, sums) => (res, sums)

/-- The check of a whole body, and the sums it computed. -/
def verdict (fuel : ℕ) (chunks : List Bytes) (claimedHash : String) (claimedSize : Int) :
    Option (Except String Unit) × List Int :=
  match z.feedAll fuel (z.checker claimedHash claimedSize) chunks with
  | (none, sums) => (none, sums)
  | (some (.error e), sums) => (some (.error e), sums)
  | (some (.ok c), sums) => (some (c.finish sha256), sums)

end

end Decoder

/-! ## The decoder of the upload model -/

section

variable {δ : Type} (z : Zstd δ)

/-- Its calls alone. -/
def Zstd.decoder : Decoder δ := ⟨z.init, z.run, z.compressBound⟩

/-- What the upload model's loop makes of a run out of fuel. -/
def orStuck (res : Option (Except String (Checker δ))) : Except String (Checker δ) :=
  res.getD (.error "NAR is not a valid zstd stream: no forward progress")

theorem feedLoop_eq : ∀ (fuel : ℕ) (c : Checker δ) (src : Bytes),
    feedLoop z fuel c src = orStuck (z.decoder.feedLoop fuel c src).1
  | 0, _, _ => rfl
  | fuel + 1, c, src => by
    rw [feedLoop, Decoder.feedLoop]
    cases hr : z.run c.decoder src scratch with
    | error e =>
      have hd : z.decoder.run c.decoder src scratch = .error e := hr
      simp only [hd]
      rfl
    | ok r =>
      have hd : z.decoder.run c.decoder src scratch = .ok r := hr
      simp only [hd]
      split
      · rfl
      · split
        · rfl
        · exact feedLoop_eq fuel _ _

/-- **It is the same check.** -/
theorem feed_eq (c : Checker δ) (chunk : Bytes) :
    c.feed z chunk = orStuck
      (z.decoder.feed (chunk.length + (c.claimedSize - c.narSize).toNat + 2) c chunk).1 := by
  unfold Checker.feed Decoder.feed
  simp only
  split
  · rfl
  · exact feedLoop_eq z _ _ _

end

/-! ## What a chunk can do -/

section

variable {δ : Type} {z : Decoder δ} {Frame : Bytes → Bytes → Prop} {At : δ → Bytes → Bytes → Prop}
variable {sha256 : Bytes → Bytes} {hash : String} {size : Int}

theorem Frames.ne_nil (hz : z.Lawful Frame At) {x y : Bytes} (h : Frames Frame x y) : x ≠ [] := by
  obtain ⟨fs, hne, hall, rfl, -⟩ := h
  obtain ⟨f, fs, rfl⟩ := List.exists_cons_of_ne_nil hne
  have hf := hz.frame_ne (hall f List.mem_cons_self)
  rw [List.map_cons, List.flatten_cons]
  exact List.append_ne_nil_of_left_ne_nil hf _

/-- No continuation of `x` is whole frames with an output of the claimed size. -/
def Hopeless (Frame : Bytes → Bytes → Prop) (size : Int) (x : Bytes) : Prop :=
  ∀ rest w, Frames Frame (x ++ rest) w → (w.length : Int) ≠ size

variable (Frame At hash size) in
/-- Between two calls, after the bytes `x`, `fed` bytes of the body having arrived. -/
structure Checker.Mid (z : Decoder δ) (c : Checker δ) (fed : ℕ) (x : Bytes) : Prop where
  at_ : At c.decoder x c.hashed
  narSize : c.narSize = c.hashed.length
  le : c.narSize ≤ max size 0
  done : c.frameDone = true ↔ Frames Frame x c.hashed
  compressed : c.compressed = fed
  maxCompressed : c.maxCompressed = z.maxCompressedLen size
  claimedHash : c.claimedHash = hash
  claimedSize : c.claimedSize = size

variable (Frame At hash size) in
/-- Between two chunks, after the bytes `x`: all their output is hashed. -/
structure Checker.Fed (z : Decoder δ) (c : Checker δ) (x : Bytes) : Prop where
  mid : c.Mid Frame At hash size z x.length x
  flushed : ∀ w, Frames Frame x w → c.hashed = w
  bounded : x.length ≤ z.maxCompressedLen size

theorem Checker.fed_new (hz : z.Lawful Frame At) (hash : String) (size : Int) :
    (z.checker hash size).Fed Frame At hash size z [] where
  mid := ⟨hz.at_init, rfl, le_max_right _ _,
    ⟨fun h => absurd h (by simp [Decoder.checker]), fun h => absurd rfl (h.ne_nil hz)⟩,
    rfl, rfl, rfl, rfl⟩
  flushed _ h := absurd rfl (h.ne_nil hz)
  bounded := Nat.zero_le _

/-- A sum of one call, while the claim leaves room for one more buffer. -/
theorem Checker.Mid.sum_isI64 {c : Checker δ} {fed : ℕ} {x out : Bytes}
    (h : c.Mid Frame At hash size z fed x) (hsize : size ≤ i64Max - scratch)
    (hout : out.length ≤ scratch) : IsI64 (c.narSize + out.length) := by
  have hle := h.le
  have hn := h.narSize
  simp only [IsI64, i64Min, i64Max, scratch] at hsize hout ⊢
  omega

theorem wrapI64_of_isI64 {n : Int} (h : IsI64 n) (hpos : 0 ≤ n) : wrapI64 n = n := by
  obtain ⟨m, rfl⟩ := Int.eq_ofNat_of_zero_le hpos
  refine wrapI64_of_lt ?_
  have hmax := h.2
  simp only [i64Max] at hmax
  omega

/-- **One call**: what a call that is not refused leaves. -/
theorem Checker.Mid.call (hz : z.Lawful Frame At) {c : Checker δ} {fed : ℕ} {x src : Bytes}
    {r : Ran δ} (h : c.Mid Frame At hash size z fed x)
    (hrun : z.run c.decoder src scratch = .ok r)
    (hle : c.narSize + r.out.length ≤ size) :
    Checker.Mid Frame At hash size z
      { c with
        decoder := r.state
        narSize := c.narSize + r.out.length
        hashed := c.hashed ++ r.out
        frameDone := if 0 < r.consumed ∨ r.out ≠ [] then r.hint == 0 else c.frameDone }
      fed (x ++ src.take r.consumed) where
  at_ := (hz.run_at h.at_ hrun).2.2
  narSize := by
    have hn := h.narSize
    simp only [List.length_append]
    omega
  le := hle.trans (le_max_left _ _)
  done := by
    simp only
    split
    · rename_i hprog
      rw [beq_iff_eq]
      exact hz.boundary h.at_ hrun hprog
    · rename_i hidle
      -- an idle call leaves everything where it was
      have h0 : r.consumed = 0 := by omega
      have hout : r.out = [] := by
        by_contra hne
        exact hidle (Or.inr hne)
      rw [h0, hout, List.take_zero, List.append_nil, List.append_nil]
      exact h.done
  compressed := h.compressed
  maxCompressed := h.maxCompressed
  claimedHash := h.claimedHash
  claimedSize := h.claimedSize

/-- What a part of the check may come to: no sum leaves `i64`, a state is `Good`, an error means
`Bad`, and where the fuel is `Enough` there is one of the two. -/
structure ComesTo {β : Type} (res : Option (Except String β) × List Int) (Good : β → Prop)
    (Bad Enough : Prop) : Prop where
  sums : ∀ s ∈ res.2, IsI64 s
  ok : ∀ c, res.1 = some (.ok c) → Good c
  error : ∀ e, res.1 = some (.error e) → Bad
  ends : Enough → ∃ v, res.1 = some v

section

variable {β : Type} {res : Option (Except String β) × List Int} {Good Good' : β → Prop}
variable {Bad Bad' Enough Enough' : Prop} {sums : List Int}

theorem no_sums : ∀ s ∈ ([] : List Int), IsI64 s := fun _ h => absurd h List.not_mem_nil

theorem ComesTo.of_ok {c : β} (hsums : ∀ s ∈ sums, IsI64 s) (hc : Good c) :
    ComesTo (some (.ok c), sums) Good Bad Enough where
  sums := hsums
  ok _ h := Except.ok.inj (Option.some.inj h) ▸ hc
  error _ h := nomatch Option.some.inj h
  ends _ := ⟨_, rfl⟩

theorem ComesTo.of_error {e : String} (hsums : ∀ s ∈ sums, IsI64 s) (hbad : Bad) :
    ComesTo (some (.error e), sums) Good Bad Enough where
  sums := hsums
  ok _ h := nomatch Option.some.inj h
  error _ _ := hbad
  ends _ := ⟨_, rfl⟩

theorem ComesTo.of_none (hsums : ∀ s ∈ sums, IsI64 s) (hfuel : ¬ Enough) :
    ComesTo (none, sums) Good Bad Enough where
  sums := hsums
  ok _ h := nomatch h
  error _ h := nomatch h
  ends h := absurd h hfuel

theorem ComesTo.not_enough (h : ComesTo (none, sums) Good Bad Enough) : ¬ Enough := by
  intro henough
  obtain ⟨v, hv⟩ := h.ends henough
  cases hv

/-- More sums, and another reading of the result. -/
theorem ComesTo.imp (h : ComesTo res Good Bad Enough) (hsums : ∀ s ∈ sums, IsI64 s)
    (hgood : ∀ c, Good c → Good' c) (hbad : Bad → Bad') (henough : Enough' → Enough) :
    ComesTo (res.1, sums ++ res.2) Good' Bad' Enough' where
  sums s hs := by
    rcases List.mem_append.mp hs with hs | hs
    · exact hsums s hs
    · exact h.sums s hs
  ok c hc := hgood c (h.ok c hc)
  error e he := hbad (h.error e he)
  ends := h.ends ∘ henough

end

/-- **The loop over a chunk**: no sum leaves `i64`, and it ends, with all that can be had hashed, or
for a reason. -/
theorem feedLoop_spec (hz : z.Lawful Frame At) (hsize : size ≤ i64Max - scratch) {fed : ℕ}
    (fuel : ℕ) {c : Checker δ} (src : Bytes) {x : Bytes} (h : c.Mid Frame At hash size z fed x) :
    ComesTo (z.feedLoop fuel c src)
      (fun c' => c'.Mid Frame At hash size z fed (x ++ src) ∧
        ∀ w, Frames Frame (x ++ src) w → c'.hashed = w)
      (Hopeless Frame size (x ++ src))
      (src.length + (size - c.narSize).toNat + 2 ≤ fuel) := by
  induction fuel generalizing c src x with
  | zero => exact .of_none no_sums (by omega)
  | succ fuel ih =>
    rw [Decoder.feedLoop]
    cases hrun : z.run c.decoder src scratch with
    | error e =>
      refine .of_error no_sums ?_
      intro rest w hw
      exact absurd hw (hz.malformed h.at_ hrun rest w)
    | ok r =>
      obtain ⟨hconsumed, hroom, hat⟩ := hz.run_at h.at_ hrun
      have hn := h.narSize
      have hclaim := h.claimedSize
      have hsum := h.sum_isI64 hsize hroom
      have hsums : ∀ s ∈ [c.narSize + (r.out.length : Int)], IsI64 s :=
        fun s hs => List.mem_singleton.mp hs ▸ hsum
      have htake := List.take_append_drop r.consumed src
      simp only [wrapI64_of_isI64 hsum (by omega)]
      split
      · -- more output than was claimed, whatever follows
        rename_i hover
        refine .of_error hsums ?_
        intro rest w hw
        have hsplit : x ++ src ++ rest =
            x ++ src.take r.consumed ++ (src.drop r.consumed ++ rest) := by
          rw [List.append_assoc x, List.append_assoc, ← List.append_assoc (src.take _), htake]
        rw [hsplit] at hw
        have hlen := (hz.output hat hw).length_le
        rw [List.length_append] at hlen
        omega
      · rename_i hle
        have hmid := h.call hz hrun (by omega)
        split
        · -- the chunk is done, and the buffer had room to spare
          rename_i hdone
          have hall : r.consumed = src.length := by
            have := List.drop_eq_nil_iff.mp hdone.1
            omega
          rw [hdone.1, List.append_nil] at htake
          rw [htake] at hmid
          exact .of_ok hsums ⟨hmid, fun w hw => hz.flushed h.at_ hrun hall hdone.2 hw⟩
        · rename_i hmore
          have hprog : 0 < r.consumed ∨ 0 < r.out.length := by
            by_cases hsrc : src = []
            · have hfull : ¬ r.out.length < scratch := fun hlt => hmore ⟨by simp [hsrc], hlt⟩
              simp only [scratch] at hfull
              omega
            · rcases hz.progress h.at_ hrun hsrc (by decide) with hc | ho
              · exact Or.inl hc
              · exact Or.inr (List.length_pos_iff.mpr ho)
          have hrest := ih (src.drop r.consumed) hmid
          rw [List.append_assoc, htake] at hrest
          refine hrest.imp hsums (fun _ hc => hc) id fun hfuel => ?_
          rw [List.length_drop]
          simp only
          omega

/-- Past the bound, or hopeless: to be refused whatever follows. -/
def Barred (Frame : Bytes → Bytes → Prop) (z : Decoder δ) (size : Int) (x : Bytes) : Prop :=
  z.maxCompressedLen size < x.length ∨ Hopeless Frame size x

theorem Barred.append {x : Bytes} (h : Barred Frame z size x) (rest : Bytes) :
    Barred Frame z size (x ++ rest) := by
  rcases h with hlong | hhopeless
  · left
    rw [List.length_append]
    omega
  · right
    intro more w hw
    rw [List.append_assoc] at hw
    exact hhopeless _ w hw

/-- The count of bytes saturates only past the bound. -/
theorem Decoder.Lawful.maxCompressedLen_lt (hz : z.Lawful Frame At) (hsize : IsI64 size) :
    z.maxCompressedLen size < 2 ^ 64 - 1 := by
  have hmax := hsize.2
  simp only [i64Max] at hmax
  have hn : (max size 0).toNat < 2 ^ 63 := by omega
  unfold Decoder.maxCompressedLen
  rw [hz.compressBound hn]
  unfold satAdd zstdCompressBound compressedSlack
  omega

/-- **One chunk.** -/
theorem feed_spec (hz : z.Lawful Frame At) (hi64 : IsI64 size) (hsize : size ≤ i64Max - scratch)
    (fuel : ℕ) {c : Checker δ} {x : Bytes} (h : c.Fed Frame At hash size z x) (chunk : Bytes) :
    ComesTo (z.feed fuel c chunk) (fun c' => c'.Fed Frame At hash size z (x ++ chunk))
      (Barred Frame z size (x ++ chunk)) (chunk.length + size.toNat + 2 ≤ fuel) := by
  have hlt := hz.maxCompressedLen_lt hi64
  have hfed := h.mid.compressed
  have hmax := h.mid.maxCompressed
  have hn := h.mid.narSize
  unfold Decoder.feed
  simp only
  split
  · rename_i hover
    refine .of_error no_sums (Or.inl ?_)
    rw [List.length_append, ← hfed, ← hmax]
    exact hover.trans_le (min_le_left _ _)
  · rename_i hle
    have hcount : satAdd c.compressed chunk.length = (x ++ chunk).length := by
      rw [List.length_append]
      unfold satAdd at hle ⊢
      omega
    have hmid : Checker.Mid Frame At hash size z
        { c with compressed := satAdd c.compressed chunk.length } (x ++ chunk).length x :=
      { h.mid with compressed := hcount }
    refine (feedLoop_spec hz hsize fuel chunk hmid).imp no_sums
      (fun c' hc => ⟨hc.1, hc.2, by omega⟩) Or.inr fun hfuel => ?_
    simp only
    omega

/-- **The chunks**, however the body was split. -/
theorem feedAll_spec (hz : z.Lawful Frame At) (hi64 : IsI64 size) (hsize : size ≤ i64Max - scratch)
    (fuel : ℕ) {c : Checker δ} {x : Bytes} (chunks : List Bytes)
    (h : c.Fed Frame At hash size z x) :
    ComesTo (z.feedAll fuel c chunks) (fun c' => c'.Fed Frame At hash size z (x ++ chunks.flatten))
      (Barred Frame z size (x ++ chunks.flatten)) (chunks.flatten.length + size.toNat + 2 ≤ fuel) := by
  induction chunks generalizing c x with
  | nil =>
    refine .of_ok no_sums ?_
    rwa [List.flatten_nil, List.append_nil]
  | cons chunk chunks ih =>
    have hone := feed_spec hz hi64 hsize fuel h chunk
    rw [List.flatten_cons, ← List.append_assoc, List.length_append, Decoder.feedAll]
    generalize z.feed fuel c chunk = res at hone ⊢
    match res with
    | (some (.ok c'), sums) =>
      exact (ih (hone.ok c' rfl)).imp hone.sums (fun _ hc => hc) id fun hfuel => by omega
    | (some (.error e), sums) => exact .of_error hone.sums ((hone.error e rfl).append _)
    | (none, sums) => exact .of_none hone.sums fun hfuel => hone.not_enough (by omega)

/-- What the check is to accept. -/
def Decoder.Accepts (z : Decoder δ) (Frame : Bytes → Bytes → Prop) (sha256 : Bytes → Bytes)
    (hash : String) (size : Int) (body : Bytes) : Prop :=
  body.length ≤ z.maxCompressedLen size ∧
    ∃ nar, Frames Frame body nar ∧ (nar.length : Int) = size ∧ sha256Nix32 (sha256 nar) = hash

theorem Barred.not_accepts {body : Bytes} (h : Barred Frame z size body) :
    ¬ z.Accepts Frame sha256 hash size body := by
  rintro ⟨hle, nar, hframes, hsize, -⟩
  rcases h with hlong | hhopeless
  · omega
  · refine hhopeless [] nar ?_ hsize
    rwa [List.append_nil]

/-- **End of stream.** -/
theorem Checker.Fed.finish_iff {c : Checker δ} {body : Bytes}
    (h : c.Fed Frame At hash size z body) (sha256 : Bytes → Bytes) :
    c.finish sha256 = .ok () ↔ z.Accepts Frame sha256 hash size body := by
  have hn := h.mid.narSize
  have hclaim := h.mid.claimedSize
  have hhash := h.mid.claimedHash
  have hdone := h.mid.done
  unfold Checker.finish
  constructor
  · intro hok
    split at hok
    · cases hok
    · rename_i hframe
      split at hok
      · cases hok
      · rename_i hsize
        simp only at hok
        split at hok
        · cases hok
        · rename_i hsha
          push Not at hsize hsha
          exact ⟨h.bounded, c.hashed, hdone.mp (by simpa using hframe), by omega,
            hsha.trans hhash⟩
  · rintro ⟨-, nar, hframes, hsize, hsha⟩
    obtain rfl := h.flushed nar hframes
    have hframe : c.frameDone = true := hdone.mpr hframes
    have hnar : c.narSize = c.claimedSize := by omega
    simp [hframe, hnar, hsha, hhash]

/-- **The whole check** of a claim that leaves room for one more buffer. -/
theorem verdict_spec (hz : z.Lawful Frame At) (hi64 : IsI64 size) (hsize : size ≤ i64Max - scratch)
    (sha256 : Bytes → Bytes) (hash : String) (fuel : ℕ) (chunks : List Bytes) :
    ComesTo (z.verdict sha256 fuel chunks hash size)
      (fun _ => z.Accepts Frame sha256 hash size chunks.flatten)
      (¬ z.Accepts Frame sha256 hash size chunks.flatten)
      (chunks.flatten.length + size.toNat + 2 ≤ fuel) := by
  have hall := feedAll_spec hz hi64 hsize fuel chunks (Checker.fed_new hz hash size)
  rw [List.nil_append] at hall
  unfold Decoder.verdict
  generalize z.feedAll fuel (z.checker hash size) chunks = res at hall ⊢
  match res with
  | (some (.ok c), sums) =>
    have hiff := (hall.ok c rfl).finish_iff sha256
    refine ⟨hall.sums, fun v hv => ?_, fun e he => ?_, fun _ => ⟨_, rfl⟩⟩
    · exact hiff.mp (Option.some.inj hv)
    · intro hacc
      have hfin : c.finish sha256 = .error e := Option.some.inj he
      rw [hiff.mpr hacc] at hfin
      cases hfin
  | (some (.error e), sums) => exact .of_error hall.sums (hall.error e rfl).not_accepts
  | (none, sums) => exact .of_none hall.sums hall.not_enough

end

end Garret
