import Garret.Client.Tokens

/-!
# What the token source promises

For any number of `get` and `renew` calls on one `TokenSource` (`Client.Tokens`), in any order of
their steps:

* `refresh_spends_live`: a refresh spends a refresh token the issuer accepts, and no call is told
  that the login expired, as long as none is revoked or lost on its way to the file (`Rotating`).
* `one_replacement`: of the calls that renew one rejected token, one at most mints, and none comes
  back with the token that was rejected.
* `cached_is_alive`: a token that `get` gives out without a mint has not reached the end of the
  lifetime its claims declare: the margin covers the time a mint's request may take.

Each is an invariant of one call beside the others, with the mutex of `Client.Tokens` assumed.
-/

namespace Garret.Tokens

open Garret.Lib

variable {mint : Mint} {peek : String → Option Claims} {s s' : State} {a : Act}

/-! ## A run to look at -/

namespace Sample

/-- The issuer serves with these tokens. -/
def serve (access refresh : String) : Outside := ⟨true, true, true, ⟨access, refresh⟩, false⟩

/-- All goes well, and the issuer issues nothing. -/
def calm : Outside := ⟨true, true, true, ⟨none, none⟩, false⟩

/-- What the claims of every token of the issuer declare: five minutes. -/
def claims : String → Option Claims := fun _ => some ⟨none, some 1300, some 1000⟩

/-- A login is stored. -/
def boot : State := .boot (.boot (.stored ⟨"r0", "https://id", "cli"⟩) ["r0"])

/-- Call `i` mints, from its start to its end. -/
def minting (i : ℕ) (access refresh : String) : List Act :=
  [.step i calm, .step i calm, .step i (serve access refresh), .step i calm, .step i calm]

end Sample

/-! ## Rotation -/

/-- The refresh token in the file is one the issuer accepts. -/
def World.FileLive (w : World) : Prop := ∀ t, w.file = .stored t → t.refreshToken ∈ w.live

/-- No rotated refresh token is lost between the issuer and the file, the issuer revokes none, and
another process refreshes only while no call here mints. -/
def Rotating (s : State) : Act → Prop
  | .step i o => ∀ t ∈ s.task? i, t.stage.keeps s.shared o = true
  | .outside (.revoke _) => False
  | .outside (.refreshed _) => s.shared.lock = none
  | .crash _ => ∀ i ∈ s.shared.lock, ∀ t ∈ s.task? i, t.stage.rotated? = none
  | _ => True

instance (s : State) : ∀ a : Act, Decidable (Rotating s a)
  | .step i o => inferInstanceAs (Decidable (∀ t ∈ s.task? i, t.stage.keeps s.shared o = true))
  | .outside (.revoke _) => .isFalse id
  | .outside (.refreshed _) => inferInstanceAs (Decidable (s.shared.lock = none))
  | .outside (.login _) => .isTrue trivial
  | .outside (.tick _) => .isTrue trivial
  | .crash _ =>
    inferInstanceAs (Decidable (∀ i ∈ s.shared.lock, ∀ t ∈ s.task? i, t.stage.rotated? = none))
  | .spawn .. => .isTrue trivial

/-- A call and the refresh tokens. -/
structure Task.Live (w : World) (t : Task) : Prop where
  unspent : ∀ x, t.stage.unspent? = some x → x.refreshToken ∈ w.live
  /-- As long as it has nothing to save, the file is in order. -/
  file : t.stage.locked = true → t.stage.rotated? = none → w.FileLive
  rotated : ∀ r, t.stage.rotated? = some r → r ∈ w.live
  accepted : ∀ x sent, t.stage ≠ .replied (some x) sent .denied
  fine : t.stage ≠ .ended (.failed .expired)

/-- What the mutex guards is in order while it is free. -/
def FreeLive (s : State) : Prop := s.shared.lock = none → s.shared.FileLive

/-- A call that does not mint has nothing to do with the refresh tokens. -/
theorem Task.Live.of_not_locked {w w' : World} {t : Task} (h : t.Live w)
    (hl : t.stage.locked = false) : t.Live w' := by
  obtain ⟨call, stage⟩ := t
  cases stage with
  | start => exact ⟨by simp [Stage.unspent?], by simp [Stage.locked],
      by simp [Stage.rotated?, Stage.answer?], by simp, by simp⟩
  | ended r => exact ⟨by simp [Stage.unspent?], by simp [Stage.locked],
      by simp [Stage.rotated?, Stage.answer?], by simp, h.fine⟩
  | _ => exact absurd hl (by simp [Stage.locked])

/-- It survives what adds to the refresh tokens and leaves the file in order. -/
theorem Task.Live.mono {w w' : World} {t : Task} (h : t.Live w) (hl : ∀ r ∈ w.live, r ∈ w'.live)
    (hf : w.FileLive → w'.FileLive) : t.Live w' :=
  ⟨fun x hx => hl _ (h.unspent x hx), fun hk hr => hf (h.file hk hr),
    fun r hr => hl r (h.rotated r hr), h.accepted, h.fine⟩

theorem live_issue {w : World} {x : StoredToken} {a : Answer} {r : String}
    (h : a.refresh = some r) :
    (w.issue (some x) a).live = r :: w.live.filter (· ≠ x.refreshToken) := by
  simp [World.issue, h]

theorem live_issue_same {w : World} {spends : Option StoredToken} {a : Answer}
    (h : spends = none ∨ a.refresh = none) : (w.issue spends a).live = w.live := by
  rcases h with rfl | h
  · rfl
  · cases spends <;> simp [World.issue, h]

/-- What was answered is saved, or there was nothing to save. -/
theorem fileLive_save {w : World} {spends : Option StoredToken} {a : Answer}
    (hr : ∀ r, (Stage.answered spends a).rotated? = some r → r ∈ w.live)
    (hf : (Stage.answered spends a).rotated? = none → w.FileLive) :
    (w.save spends a.refresh).FileLive := by
  cases spends with
  | none => exact hf rfl
  | some x =>
    cases href : a.refresh with
    | none => exact hf (by simp [Stage.rotated?, Stage.answer?, href])
    | some r =>
      intro t ht
      obtain rfl := TokenFile.stored.inj ht
      exact hr r (by simp [Stage.rotated?, Stage.answer?, href])

/-- **A call's step keeps the refresh tokens**, its own and the file's. -/
theorem Task.Live.step {me : ℕ} {w w' : World} {o : Outside} {t t' : Task} (h : t.Live w)
    (hm : Holds me w t) (hfree : w.lock = none → w.FileLive) (hk : t.stage.keeps w o = true)
    (hs : Stepped mint peek me w o t w' t'.stage) :
    (w'.lock = none → w'.FileLive) ∧ t'.Live w' := by
  obtain ⟨call', stage'⟩ := t'
  have hended : ∀ {w : World} {r : Result}, r ≠ .failed .expired →
      (⟨call', .ended r⟩ : Task).Live w := fun hr =>
    ⟨by simp [Stage.unspent?], by simp [Stage.locked], by simp [Stage.rotated?, Stage.answer?],
      by simp, by simpa using hr⟩
  cases hs with
  | leaves _ _ he => exact ⟨hfree, hended he⟩
  | hits => exact ⟨hfree, hended (by simp)⟩
  | gives => exact ⟨hfree, hended (by simp)⟩
  | begins hs hl hh hg hn hu hp hr =>
    have hnone : stage'.rotated? = none := by simp [Stage.rotated?, hn]
    refine ⟨fun hx => absurd hx (by simp), ⟨fun x hx => hfree hl x (hu x hx), fun _ _ => hfree hl,
      fun r hr => absurd (hnone.symm.trans hr) (by simp), fun x sent => hr _ _ _, ?_⟩⟩
    rintro rfl
    exact absurd hg (by simp [Stage.locked])
  | asks hs =>
    exact ⟨hfree, ⟨fun x hx => h.unspent x (by rw [hs]; exact hx),
      fun _ _ => h.file (by rw [hs]; rfl) (by rw [hs]; rfl),
      by simp [Stage.rotated?, Stage.answer?], by simp, by simp⟩⟩
  | @handled spends sent hs =>
    have hfile : w.FileLive := h.file (by rw [hs]; rfl) (by rw [hs]; rfl)
    have hmine : w.lock = some me := hm (by rw [hs]; rfl)
    refine ⟨fun hl => ?_, by simp [Stage.unspent?], fun _ hnone => ?_, fun r hr => ?_, by simp,
      by simp⟩
    · exact absurd (hmine.symm.trans hl) (by simp)
    · cases spends with
      | none => exact fun x hx => (live_issue_same (Or.inl rfl)).symm ▸ hfile x hx
      | some x =>
        have hno : o.answer.refresh = none := by simpa [Stage.rotated?, Stage.answer?] using hnone
        exact fun y hy => (live_issue_same (Or.inr hno)).symm ▸ hfile y hy
    · cases spends with
      | none => exact absurd hr (by simp [Stage.rotated?, Stage.answer?])
      | some x =>
        have hsome : o.answer.refresh = some r := by simpa [Stage.rotated?, Stage.answer?] using hr
        rw [live_issue hsome]
        exact List.mem_cons_self
  | @unserved spends sent reply hs ha hd =>
    have hfile : w.FileLive := h.file (by rw [hs]; rfl) (by rw [hs]; rfl)
    refine ⟨hfree, by simp [Stage.unspent?], fun _ _ => hfile, fun r hr => ?_, fun x n he => ?_,
      by simp⟩
    · cases reply with
      | answers a => exact absurd rfl (ha a)
      | _ => exact absurd hr (by simp [Stage.rotated?, Stage.answer?])
    · obtain ⟨rfl, -, rfl⟩ := Stage.replied.inj he
      refine hd rfl ?_
      simpa using h.unspent x (by rw [hs]; rfl)
  | reads hs =>
    exact ⟨hfree, by simp [Stage.unspent?],
      fun _ hnone => h.file (by rw [hs]; rfl) (by rw [hs]; exact hnone),
      fun r hr => h.rotated r (by rw [hs]; exact hr), by simp, by simp⟩
  | fails hs hr hkeeps he =>
    refine ⟨fun _ => h.file hs (hkeeps hk), hended fun hexp => ?_⟩
    obtain ⟨x, sent, hx⟩ := he hexp
    exact h.accepted x sent hx
  | @strays spends sent hs hkeeps =>
    have hfile : w.FileLive := h.file (by rw [hs]; rfl) (by rw [hs]; rfl)
    exact ⟨fun _ x hx => (live_issue_same (hkeeps hk)).symm ▸ hfile x hx, hended (by simp)⟩
  | @saves spends a hs =>
    exact ⟨fun _ => fileLive_save (fun r hr => h.rotated r (by rw [hs]; exact hr))
      fun hnone => h.file (by rw [hs]; rfl) (by rw [hs]; exact hnone), hended (by simp)⟩
  | @mints spends a token hs ha =>
    exact ⟨fun _ => fileLive_save (fun r hr => h.rotated r (by rw [hs]; exact hr))
      fun hnone => h.file (by rw [hs]; rfl) (by rw [hs]; exact hnone), hended (by simp)⟩

/-- A call that takes no part in the mutex leaves the refresh tokens alone. -/
theorem Task.Stepped.untouched {me : ℕ} {w w' : World} {o : Outside} {t : Task} {stage : Stage}
    (hs : Stepped mint peek me w o t w' stage) (hl : t.stage.locked = false) :
    w'.live = w.live ∧ w'.file = w.file := by
  cases hs with
  | leaves => exact ⟨rfl, rfl⟩
  | hits => exact ⟨rfl, rfl⟩
  | gives => exact ⟨rfl, rfl⟩
  | begins => exact ⟨rfl, rfl⟩
  | fails hs => exact absurd (hl.symm.trans hs) (by simp)
  | asks hs => exact absurd hl (by rw [hs]; simp [Stage.locked])
  | handled hs => exact absurd hl (by rw [hs]; simp [Stage.locked])
  | unserved hs => exact absurd hl (by rw [hs]; simp [Stage.locked])
  | reads hs => exact absurd hl (by rw [hs]; simp [Stage.locked])
  | strays hs => exact absurd hl (by rw [hs]; simp [Stage.locked])
  | saves hs => exact absurd hl (by rw [hs]; simp [Stage.locked])
  | mints hs => exact absurd hl (by rw [hs]; simp [Stage.locked])

/-- **Rotation keeps the refresh tokens in order.** -/
theorem keeps_live : (program mint peek).Keeps (fun s a => Rotating s a ∧ Mutex s) FreeLive
    (fun _ => Task.Live) (fun _ _ => True) where
  spawn {s i t} _ hI _ hi := by
    have hs : t.stage = .start := of_decide_eq_true hi
    refine ⟨hI.whole, ?_⟩
    exact ⟨by simp [hs, Stage.unspent?], by simp [hs, Stage.locked],
      by simp [hs, Stage.rotated?, Stage.answer?], by simp [hs], by simp [hs]⟩
  spawnPair _ _ _ _ := ⟨trivial, trivial⟩
  self {s i o t w' t'} hok hI ht h := by
    obtain ⟨-, hs⟩ := run_cases h
    exact (hI.task i t ht).step (hok.2.task i t ht) hI.whole (hok.1 t ht) hs
  other {s i o t w' t' j u} hok hI ht h hji hu := by
    obtain ⟨-, hs⟩ := run_cases h
    refine ⟨?_, trivial, trivial⟩
    cases htl : t.stage.locked with
    | true => exact (hI.task j u hu).of_not_locked (hok.2.alone ht hu hji htl)
    | false =>
      obtain ⟨hlive, hfile⟩ := hs.untouched htl
      exact (hI.task j u hu).mono (by rw [hlive]; exact fun _ h => h)
        (by unfold World.FileLive; rw [hlive, hfile]; exact id)
  outside {s e w'} hok hI h := by
    cases e with
    | tick n =>
      obtain rfl := Option.some.inj h
      exact ⟨hI.whole, fun i t ht => (hI.task i t ht).mono (fun _ h => h) id⟩
    | login x =>
      obtain rfl := Option.some.inj h
      have hfile : World.FileLive
          { s.shared with file := .stored x, live := x.refreshToken :: s.shared.live } := by
        intro y hy
        obtain rfl := TokenFile.stored.inj hy
        exact List.mem_cons_self
      exact ⟨fun _ => hfile, fun i t ht =>
        (hI.task i t ht).mono (fun _ h => List.mem_cons_of_mem _ h) fun _ => hfile⟩
    | refreshed refresh =>
      have hfree : s.shared.lock = none := hok.1
      refine ⟨fun _ => ?_, fun i t ht => (hI.task i t ht).of_not_locked (hok.2.free hfree ht)⟩
      simp only [program, Event.apply] at h
      split at h
      · rename_i x hx
        split at h
        · obtain rfl := Option.some.inj h
          intro y hy
          obtain rfl := TokenFile.stored.inj hy
          exact List.mem_cons_self
        · exact absurd h (by simp)
      · exact absurd h (by simp)
    | revoke r => exact absurd hok.1 (by simp [Rotating])
  restart {s o} hok hI := by
    intro _
    cases hl : s.shared.lock with
    | none => exact hI.whole hl
    | some i =>
      obtain ⟨t, ht, htl⟩ := hok.2.whole i hl
      exact (hI.task i t ht).file htl (hok.1 i hl t ht)

/-- **A refresh spends what the issuer accepts.** Let the issuer accept the login stored at the start.
As long as it revokes nothing, no rotated token is lost on its way to the file and no other process
refreshes while a call mints, every call that is about to spend a refresh token spends one the issuer
accepts, and no call ends with the login expired. -/
theorem refresh_spends_live {file : TokenFile} {live : List String}
    (hlogin : ∀ x, file = .stored x → x.refreshToken ∈ live)
    (h : Reach (program mint peek).step Rotating (.boot (.boot file live)) s) {i : ℕ} {t : Task}
    (ht : s.task? i = some t) :
    (∀ x, t.stage.unspent? = some x → x.refreshToken ∈ s.shared.live) ∧
      t.stage ≠ .ended (.failed .expired) := by
  have hI := keeps_live.reach (assume_mutex h) (Program.Invariant.boot fun _ => hlogin)
  exact ⟨(hI.task i t ht).unspent, (hI.task i t ht).fine⟩

/-- A renewal is about to spend what the mint before it left in the file. -/
theorem refresh_spends_live_rotated : ∃ s,
    Reach (program .stored Sample.claims).step Rotating Sample.boot s ∧
    (∃ t x, s.task? 1 = some t ∧ t.stage.unspent? = some x ∧ x.refreshToken = "r1" ∧
      x.refreshToken ∈ s.shared.live) := by
  obtain ⟨s, hrun, ht⟩ := exec_check (program .stored Sample.claims).step Rotating
    (.spawn 0 ⟨.get, .start⟩ :: Sample.minting 0 "a0" "r1" ++
      [.spawn 1 ⟨.renew "a0", .start⟩, .step 1 (Sample.serve "a1" "r2")]) Sample.boot
    (fun s => s.task? 1 = some ⟨.renew "a0", .discover (some ⟨"r1", "https://id", "cli"⟩)⟩)
    (by decide +kernel)
  have hlogin : ∀ x, TokenFile.stored ⟨"r0", "https://id", "cli"⟩ = .stored x →
      x.refreshToken ∈ ["r0"] := by
    intro x hx
    rw [← TokenFile.stored.inj hx]
    exact List.mem_cons_self
  exact ⟨s, hrun, _, _, ht, rfl, rfl, (refresh_spends_live hlogin hrun ht).1 _ rfl⟩

/-! ## One replacement -/

/-- The issuer has issued this access token. -/
def World.Issued (w : World) (token : String) : Prop := token ∈ w.issued.map Prod.fst

/-- A caller renews a token it was given, and the issuer issues every token once. -/
def Distinct (s : State) : Act → Prop
  | .spawn _ t => ∀ r, t.call = .renew r → ∃ j u, s.task? j = some u ∧ u.stage.token? = some r
  | .step _ o => ∀ token ∈ o.answer.access, ¬ s.shared.Issued token
  | _ => True

theorem givenOut_iff {r : String} : (∃ j u, s.task? j = some u ∧ u.stage.token? = some r) ↔
    ∃ e ∈ s.table.entries, e.2.stage.token? = some r :=
  ⟨fun ⟨j, u, hu, hx⟩ => ⟨⟨j, u⟩, Table.lookup_eq_some_iff.mp hu, hx⟩,
    fun ⟨e, he, hx⟩ => ⟨e.1, e.2, Table.lookup_eq_some_iff.mpr he, hx⟩⟩

instance (w : World) (token : String) : Decidable (w.Issued token) :=
  inferInstanceAs (Decidable (token ∈ w.issued.map Prod.fst))

instance (s : State) : ∀ a : Act, Decidable (Distinct s a)
  | .spawn _ ⟨.get, _⟩ => .isTrue fun _ h => absurd h (by simp)
  | .spawn _ ⟨.renew r, _⟩ =>
    haveI : Decidable (∃ j u, s.task? j = some u ∧ u.stage.token? = some r) :=
      decidable_of_iff' _ givenOut_iff
    decidable_of_iff (∃ j u, s.task? j = some u ∧ u.stage.token? = some r)
      ⟨fun h _ hr => Call.renew.inj hr ▸ h, fun h => h r rfl⟩
  | .step _ o =>
    inferInstanceAs (Decidable (∀ token ∈ o.answer.access, ¬ s.shared.Issued token))
  | .outside _ => .isTrue trivial
  | .crash _ => .isTrue trivial

/-- The source holds a token that was issued. -/
def HeldIssued (s : State) : Prop := ∀ h, s.shared.held = some h → s.shared.Issued h.token

/-- A call and the access tokens. -/
structure Task.Known (w : World) (t : Task) : Prop where
  rejected : ∀ r, t.call = .renew r → w.Issued r
  token : ∀ x, t.stage.token? = some x → w.Issued x
  access : ∀ x, t.stage.access? = some x → w.Issued x
  /-- While it mints in place of a token, that is the token held. -/
  minting : ∀ r h, t.call = .renew r → t.stage.locked = true → w.held = some h → h.token = r
  /-- Once it has, it is not. -/
  minted : ∀ r x, t.call = .renew r → t.stage = .ended (.minted x) →
    ∃ h, w.held = some h ∧ h.token ≠ r
  fresh : ∀ r x, t.call = .renew r → t.stage.access? = some x ∨ t.stage.token? = some x → x ≠ r

/-- Two calls: what is on its way to one of them the other has not seen, and not both have minted in
place of one token. -/
structure Task.Differ (t u : Task) : Prop where
  rejected : ∀ r x, t.call = .renew r → u.stage.access? = some x → x ≠ r
  token : ∀ y x, t.stage.token? = some y → u.stage.access? = some x → x ≠ y
  once : ∀ r x y, t.call = .renew r → u.call = .renew r → t.stage = .ended (.minted x) →
    u.stage ≠ .ended (.minted y)

theorem locked_of_access {stage : Stage} {x : String} (h : stage.access? = some x) :
    stage.locked = true := by
  cases stage with
  | start => exact absurd h (by simp [Stage.access?, Stage.answer?])
  | ended r => exact absurd h (by simp [Stage.access?, Stage.answer?])
  | _ => rfl

theorem issued_issue {w : World} {spends : Option StoredToken} {a : Answer} {x : String} :
    (w.issue spends a).Issued x ↔ a.access = some x ∨ w.Issued x := by
  unfold World.Issued World.issue
  cases a.access with
  | none => simp
  | some y =>
    rw [List.map_cons, List.mem_cons, Option.some.injEq]
    exact or_congr_left eq_comm

/-- What a step does to the access tokens: the world's, and those of the call. -/
theorem Task.Stepped.tokens {me : ℕ} {w w' : World} {o : Outside} {t : Task} {stage : Stage}
    (hm : ∀ token, mint ≠ .given token) (hs : Stepped mint peek me w o t w' stage) :
    (∀ x, w.Issued x → w'.Issued x) ∧
    (w'.held = w.held ∧ (∀ x, stage ≠ .ended (.minted x)) ∨
      ∃ x h, t.stage.access? = some x ∧ w'.held = some h ∧ h.token = x ∧
        stage = .ended (.minted x)) ∧
    (∀ x, stage.access? = some x → t.stage.access? = some x ∨
      o.answer.access = some x ∧ w'.Issued x) ∧
    ∀ x, stage.token? = some x → t.stage.access? = some x ∨
      w.lock = none ∧ hit w t.call = some x ∧ stage = .ended (.held x) := by
  cases hs with
  | leaves _ hr =>
    refine ⟨fun _ h => h, Or.inl ⟨rfl, ?_⟩, by simp [Stage.access?, Stage.answer?], fun x hx => ?_⟩
    · rintro x hx
      rw [Stage.ended.inj hx] at hr
      exact absurd hr (by simp [Result.token?])
    · exact absurd (hr.symm.trans hx) (by simp)
  | hits hs hl hh =>
    refine ⟨fun _ h => h, Or.inl ⟨rfl, by simp⟩, by simp [Stage.access?, Stage.answer?],
      fun x hx => Or.inr ?_⟩
    obtain rfl := Option.some.inj hx
    exact ⟨hl, hh, rfl⟩
  | gives _ _ hg => exact absurd hg (hm _)
  | begins hs hl hh hg hn =>
    refine ⟨fun _ h => h, Or.inl ⟨rfl, fun x hx => ?_⟩, fun x hx => ?_, fun x hx => ?_⟩
    · rw [hx] at hg
      exact absurd hg (by simp [Stage.locked])
    · rw [Stage.access?, hn] at hx
      exact absurd hx (by simp)
    · cases stage with
      | ended r => exact absurd hg (by simp [Stage.locked])
      | _ => exact absurd hx (by simp [Stage.token?])
  | asks hs =>
    exact ⟨fun _ h => h, Or.inl ⟨rfl, by simp⟩, by simp [Stage.access?, Stage.answer?],
      by simp [Stage.token?]⟩
  | handled hs =>
    refine ⟨fun _ h => issued_issue.mpr (Or.inr h), Or.inl ⟨rfl, by simp⟩, fun x hx => ?_,
      by simp [Stage.token?]⟩
    have hx : o.answer.access = some x := by simpa [Stage.access?, Stage.answer?] using hx
    exact Or.inr ⟨hx, issued_issue.mpr (Or.inl hx)⟩
  | @unserved spends sent reply hs ha =>
    refine ⟨fun _ h => h, Or.inl ⟨rfl, by simp⟩, fun x hx => ?_, by simp [Stage.token?]⟩
    cases reply with
    | answers a => exact absurd rfl (ha a)
    | _ => exact absurd hx (by simp [Stage.access?, Stage.answer?])
  | reads hs =>
    exact ⟨fun _ h => h, Or.inl ⟨rfl, by simp⟩, fun x hx => Or.inl (by rw [hs]; exact hx),
      by simp [Stage.token?]⟩
  | fails _ hr =>
    refine ⟨fun _ h => h, Or.inl ⟨rfl, ?_⟩, by simp [Stage.access?, Stage.answer?], fun x hx => ?_⟩
    · rintro x hx
      rw [Stage.ended.inj hx] at hr
      exact absurd hr (by simp [Result.token?])
    · exact absurd (hr.symm.trans hx) (by simp)
  | @strays spends sent hs =>
    have hmono : ∀ x, w.Issued x → (w.issue spends o.answer).Issued x := fun _ h =>
      issued_issue.mpr (Or.inr h)
    exact ⟨hmono, Or.inl ⟨rfl, by simp⟩, by simp [Stage.access?, Stage.answer?],
      by simp [Stage.token?, Result.token?]⟩
  | @saves spends a hs =>
    have hsame : (w.save spends a.refresh).issued = w.issued ∧
        (w.save spends a.refresh).held = w.held := by
      unfold World.save
      split <;> exact ⟨rfl, rfl⟩
    exact ⟨fun x h => (congrArg (x ∈ List.map Prod.fst ·) hsame.1).mpr h,
      Or.inl ⟨hsame.2, by simp⟩, by simp [Stage.access?, Stage.answer?],
      by simp [Stage.token?, Result.token?]⟩
  | @mints spends a token hs ha =>
    have hsame : (w.save spends a.refresh).issued = w.issued := by
      unfold World.save
      split <;> rfl
    have hacc : t.stage.access? = some token := by rw [hs]; exact ha
    refine ⟨fun x h => (congrArg (x ∈ List.map Prod.fst ·) hsame).mpr h,
      Or.inr ⟨token, _, hacc, rfl, rfl, rfl⟩, by simp [Stage.access?, Stage.answer?],
      fun x hx => Or.inl ?_⟩
    obtain rfl := Option.some.inj hx
    exact hacc

/-- A hit is the held token, and for a renewal not the one rejected. -/
theorem hit_cases {w : World} {c : Call} {x : String} (h : hit w c = some x) :
    (∃ held, w.held = some held ∧ held.token = x) ∧ ∀ r, c = .renew r → x ≠ r := by
  cases c with
  | get =>
    obtain ⟨held, hheld, hx⟩ := Option.bind_eq_some_iff.mp h
    split at hx
    · exact ⟨⟨held, hheld, Option.some.inj hx⟩, by simp⟩
    · exact absurd hx (by simp)
  | renew r =>
    obtain ⟨held, hheld, hx⟩ := Option.bind_eq_some_iff.mp h
    split at hx
    · rename_i hne
      obtain rfl := Option.some.inj hx
      refine ⟨⟨held, hheld, rfl⟩, fun r' hr => ?_⟩
      rw [← Call.renew.inj hr]
      exact hne
    · exact absurd hx (by simp)

/-- A renewal that misses finds nothing held, or the token rejected. -/
theorem held_of_miss {w : World} {r : String} {h : Held} (hmiss : hit w (.renew r) = none)
    (hh : w.held = some h) : h.token = r := by
  by_contra hne
  simp [hit, hh, hne] at hmiss

theorem ended_of_token {stage : Stage} {x : String} (h : stage.token? = some x) :
    stage.access? = none ∧ stage.locked = false := by
  cases stage with
  | ended r => exact ⟨rfl, rfl⟩
  | _ => exact absurd h (by simp [Stage.token?])

/-- **A mint in place of a token settles every other call that would renew it.** -/
theorem keeps_distinct (hm : ∀ token, mint ≠ .given token) :
    (program mint peek).Keeps (fun s a => Distinct s a ∧ Mutex s) HeldIssued (fun _ => Task.Known)
      Task.Differ where
  spawn {s i t} hok hI _ hi := by
    have hs : t.stage = .start := of_decide_eq_true hi
    refine ⟨hI.whole, fun r hr => ?_, ?_, ?_, ?_, ?_, ?_⟩
    · obtain ⟨j, u, hu, hx⟩ := hok.1 r hr
      exact (hI.task j u hu).token r hx
    all_goals simp [hs, Stage.token?, Stage.access?, Stage.answer?, Stage.locked]
  spawnPair {s i t j u} hok hI hi hu := by
    have hs : t.stage = .start := of_decide_eq_true hi
    refine ⟨⟨fun r x hr hx => ?_, by simp [hs, Stage.token?], by simp [hs]⟩,
      ⟨by simp [hs, Stage.access?, Stage.answer?], by simp [hs, Stage.access?, Stage.answer?],
        by simp [hs]⟩⟩
    obtain ⟨k, v, hv, hvx⟩ := hok.1 r hr
    by_cases hkj : k = j
    · subst hkj
      obtain rfl := Option.some.inj (hv.symm.trans hu)
      exact absurd ((ended_of_token hvx).1.symm.trans hx) (by simp)
    · exact (hI.pair k j v u hkj hv hu).token r x hvx hx
  self {s i o t w' t'} hok hI ht h := by
    obtain ⟨hcall, hs⟩ := run_cases h
    obtain ⟨hmono, hheld, hacc, htok⟩ := hs.tokens hm
    have hK := hI.task i t ht
    refine ⟨fun x hx => ?_, ⟨fun r hr => hmono r (hK.rejected r (hcall ▸ hr)), fun x hx => ?_,
      fun x hx => ?_, fun r x hr hl hx => ?_, fun r x hr hx => ?_, fun r x hr hx => ?_⟩⟩
    · rcases hheld with ⟨hsame, -⟩ | ⟨y, hy, hya, hyh, rfl, -⟩
      · exact hmono _ (hI.whole x (hsame ▸ hx))
      · obtain rfl := Option.some.inj (hyh.symm.trans hx)
        exact hmono _ (hK.access _ hya)
    · rcases htok x hx with hx | ⟨-, hhit, -⟩
      · exact hmono x (hK.access x hx)
      · obtain ⟨⟨held, hh, rfl⟩, -⟩ := hit_cases hhit
        exact hmono _ (hI.whole held hh)
    · rcases hacc x hx with hx | ⟨-, hx⟩
      · exact hmono x (hK.access x hx)
      · exact hx
    · rcases hheld with ⟨hsame, -⟩ | ⟨y, hy, -, -, -, hend⟩
      · rw [hsame] at hx
        rw [hcall] at hr
        rcases hs.lock with ⟨-, hstage⟩ | ⟨-, -, -, hmiss⟩ | ⟨-, -, hno⟩
        · exact hK.minting r x hr (hstage ▸ hl) hx
        · rw [hr] at hmiss
          exact held_of_miss hmiss hx
        · exact absurd (hno.symm.trans hl) (by simp)
      · rw [hend] at hl
        exact absurd hl (by simp [Stage.locked])
    · rcases hheld with ⟨-, hno⟩ | ⟨y, hy, hya, hyh, rfl, -⟩
      · exact absurd hx (hno x)
      · exact ⟨hy, hyh, hK.fresh r _ (hcall ▸ hr) (Or.inl hya)⟩
    · rw [hcall] at hr
      rcases hx with hx | hx
      · rcases hacc x hx with hx | ⟨hx, -⟩
        · exact hK.fresh r x hr (Or.inl hx)
        · rintro rfl
          exact hok.1 x hx (hK.rejected x hr)
      · rcases htok x hx with hx | ⟨-, hhit, -⟩
        · exact hK.fresh r x hr (Or.inl hx)
        · exact (hit_cases hhit).2 r hr
  other {s i o t w' t' j u} hok hI ht h hji hu := by
    obtain ⟨hcall, hs⟩ := run_cases h
    obtain ⟨hmono, hheld, hacc, htok⟩ := hs.tokens hm
    have hKt := hI.task i t ht
    have hKu := hI.task j u hu
    have htu := hI.pair i j t u (Ne.symm hji) ht hu
    have hut := hI.pair j i u t hji hu ht
    -- while `t` mints `u` does not, and a hit needs the mutex free
    have halone : ∀ {x y : String}, t.stage.access? = some x → u.stage.access? ≠ some y :=
      fun hx hy => absurd ((hok.2.alone ht hu hji (locked_of_access hx)).symm.trans
        (locked_of_access hy)) (by simp)
    -- both minting in place of `r`: the second would have found another token held
    have honce : ∀ {r x y : String}, t.call = .renew r → u.call = .renew r →
        t'.stage = .ended (.minted x) → u.stage ≠ .ended (.minted y) := by
      intro r x y hrt hru hx hy
      rcases hheld with ⟨-, hno⟩ | ⟨z, hz, hza, -⟩
      · exact hno x hx
      · obtain ⟨held, hh, hne⟩ := hKu.minted r y hru hy
        exact hne (hKt.minting r held hrt (locked_of_access hza) hh)
    refine ⟨⟨fun r hr => hmono r (hKu.rejected r hr), fun x hx => hmono x (hKu.token x hx),
      fun x hx => hmono x (hKu.access x hx), fun r x hr hl hx => ?_, fun r x hr hx => ?_,
      hKu.fresh⟩, ⟨fun r x hr hx => htu.rejected r x (hcall ▸ hr) hx, fun y x hy hx => ?_,
      fun r x y hrt hru hx => honce (hcall ▸ hrt) hru hx⟩,
      ⟨fun r x hr hx => ?_, fun y x hy hx => ?_, fun r x y hru hrt hx hy => ?_⟩⟩
    · rcases hheld with ⟨hsame, -⟩ | ⟨y, hy, hya, -⟩
      · exact hKu.minting r x hr hl (hsame ▸ hx)
      · exact absurd ((hok.2.alone ht hu hji (locked_of_access hya)).symm.trans hl) (by simp)
    · rcases hheld with ⟨hsame, -⟩ | ⟨y, hy, hya, hyh, rfl, -⟩
      · rw [hsame]
        exact hKu.minted r x hr hx
      · exact ⟨hy, hyh, hut.rejected r _ hr hya⟩
    · rcases htok y hy with hy | ⟨hfree, -⟩
      · exact absurd hx (halone hy)
      · exact absurd ((hok.2.free hfree hu).symm.trans (locked_of_access hx)) (by simp)
    · rcases hacc x hx with hx | ⟨hx, -⟩
      · exact hut.rejected r x hr hx
      · rintro rfl
        exact hok.1 x hx (hKu.rejected x hr)
    · rcases hacc x hx with hx | ⟨hx, -⟩
      · exact hut.token y x hy hx
      · rintro rfl
        exact hok.1 x hx (hKu.token x hy)
    · exact honce (hcall ▸ hrt) hru hy hx
  outside {s e w'} _ hI h := by
    obtain ⟨-, hheld, hissued⟩ := Event.lock h
    have hsame : ∀ x, w'.Issued x ↔ s.shared.Issued x := fun x => by
      unfold World.Issued
      rw [hissued]
    refine ⟨fun x hx => (hsame _).mpr (hI.whole x (hheld ▸ hx)), fun i t ht => ?_⟩
    have hK := hI.task i t ht
    exact ⟨fun r hr => (hsame r).mpr (hK.rejected r hr), fun x hx => (hsame x).mpr (hK.token x hx),
      fun x hx => (hsame x).mpr (hK.access x hx), fun r x hr hl hx => hK.minting r x hr hl
      (hheld ▸ hx), fun r x hr hx => hheld ▸ hK.minted r x hr hx, hK.fresh⟩
  restart _ _ := fun x hx => absurd hx (by simp [program])

/-- **One replacement for a rejected token.** When callers renew tokens they were given and the
issuer issues each once: of two calls that renew the same token at most one has minted, the other
came back with the token held by then, and neither with the one that was rejected. -/
theorem one_replacement (hm : ∀ token, mint ≠ .given token) {file : TokenFile} {live : List String}
    (h : Reach (program mint peek).step Distinct (.boot (.boot file live)) s) {i j : ℕ} {t u : Task}
    {r x y : String} (hij : i ≠ j) (ht : s.task? i = some t) (hu : s.task? j = some u)
    (htr : t.call = .renew r) (hur : u.call = .renew r) (hx : t.stage = .ended (.minted x))
    (hy : u.stage.token? = some y) : u.stage = .ended (.held y) ∧ x ≠ r ∧ y ≠ r := by
  have hk : (program mint peek).Keeps _ _ _ _ := keeps_distinct hm
  have hI := hk.reach (assume_mutex h)
    (Program.Invariant.boot fun x hx => absurd hx (by simp [World.boot]))
  refine ⟨?_, (hI.task i t ht).fresh r x htr (Or.inr (by rw [hx]; rfl)),
    (hI.task j u hu).fresh r y hur (Or.inr hy)⟩
  have honce := (hI.pair i j t u hij ht hu).once r x y htr hur hx
  obtain ⟨call, stage⟩ := u
  cases stage with
  | ended res =>
    cases res with
    | held z => rw [Option.some.inj hy]
    | minted z => exact absurd (by rw [Option.some.inj hy]) honce
    | _ => exact absurd hy (by simp [Stage.token?, Result.token?])
  | _ => exact absurd hy (by simp [Stage.token?])

/-- Three calls are told that their token was rejected; the first mints. -/
theorem one_replacement_of_three : ∃ s,
    Reach (program .stored Sample.claims).step Distinct Sample.boot s ∧
    (∃ u, s.task? 2 = some u ∧ u.stage = .ended (.held "a1") ∧ "a1" ≠ "a0") := by
  obtain ⟨s, hrun, h₁, h₂⟩ := exec_check (program .stored Sample.claims).step Distinct
    (.spawn 0 ⟨.get, .start⟩ :: Sample.minting 0 "a0" "r1" ++
      [.spawn 1 ⟨.renew "a0", .start⟩, .spawn 2 ⟨.renew "a0", .start⟩,
        .spawn 3 ⟨.renew "a0", .start⟩] ++
      Sample.minting 1 "a1" "r2" ++ [.step 2 (Sample.serve "a2" "r3")]) Sample.boot
    (fun s => s.task? 1 = some ⟨.renew "a0", .ended (.minted "a1")⟩ ∧
      s.task? 2 = some ⟨.renew "a0", .ended (.held "a1")⟩) (by decide +kernel)
  have := one_replacement (by simp) hrun (by decide) h₁ h₂ rfl rfl rfl rfl
  exact ⟨s, hrun, _, h₂, this.1, this.2.2⟩

/-! ## The margin -/

/-- The call has its answer and is about to write the token file. -/
def Stage.saving : Stage → Bool
  | answered .. => true
  | _ => false

/-- Writing the token file takes no time. -/
def Prompt (s : State) : Act → Prop
  | .outside (.tick _) => ∀ i ∈ s.shared.lock, ∀ t ∈ s.task? i, t.stage.saving = false
  | _ => True

instance (s : State) : ∀ a : Act, Decidable (Prompt s a)
  | .outside (.tick _) =>
    inferInstanceAs (Decidable (∀ i ∈ s.shared.lock, ∀ t ∈ s.task? i, t.stage.saving = false))
  | .outside (.login _) => .isTrue trivial
  | .outside (.refreshed _) => .isTrue trivial
  | .outside (.revoke _) => .isTrue trivial
  | .spawn .. => .isTrue trivial
  | .step .. => .isTrue trivial
  | .crash _ => .isTrue trivial

/-- The token was issued, and at the time `t` no longer ago than a request may take. -/
def World.Recent (w : World) (token : String) (t : ℕ) : Prop :=
  ∃ τ, (token, τ) ∈ w.issued ∧ t ≤ τ + tokenTimeout

/-- The token held was issued shortly before it was put there. -/
def HeldRecent (peek : String → Option Claims) (w : World) : Prop :=
  ∀ h, w.held = some h → w.Recent h.token h.minted ∧ h.maxAge = declaredMaxAge peek h.token

/-- A call and the time its token was issued. -/
structure Task.Timed (w : World) (t : Task) : Prop where
  post : ∀ spends sent, t.stage = .post spends sent → sent ≤ w.clock
  replied : ∀ spends sent a x, t.stage = .replied spends sent (.answers a) → a.access = some x →
    ∃ τ, (x, τ) ∈ w.issued ∧ sent ≤ τ
  answered : ∀ spends a x, t.stage = .answered spends a → a.access = some x → w.Recent x w.clock

theorem issued_mem_issue {w : World} {spends : Option StoredToken} {a : Answer} {e : String × ℕ}
    (h : e ∈ w.issued) : e ∈ (w.issue spends a).issued := by
  unfold World.issue
  cases a.access with
  | none => exact h
  | some x => exact List.mem_cons_of_mem _ h

theorem save_same (w : World) (spends : Option StoredToken) (r : Option String) :
    (w.save spends r).issued = w.issued ∧ (w.save spends r).clock = w.clock ∧
      (w.save spends r).held = w.held := by
  unfold World.save
  split <;> exact ⟨rfl, rfl, rfl⟩

/-- A step takes no time and forgets no issued token. -/
theorem Task.Stepped.clock {me : ℕ} {w w' : World} {o : Outside} {t : Task} {stage : Stage}
    (hs : Stepped mint peek me w o t w' stage) :
    w'.clock = w.clock ∧ ∀ e ∈ w.issued, e ∈ w'.issued := by
  cases hs with
  | handled => exact ⟨rfl, fun _ h => issued_mem_issue h⟩
  | @strays spends =>
    have hmono : ∀ e ∈ w.issued, e ∈ (w.issue spends o.answer).issued := fun _ h =>
      issued_mem_issue h
    exact ⟨rfl, hmono⟩
  | @saves spends a =>
    obtain ⟨hi, hc, -⟩ := save_same w spends a.refresh
    exact ⟨hc, fun e h => (congrArg (e ∈ ·) hi).mpr h⟩
  | @mints spends a token =>
    obtain ⟨hi, hc, -⟩ := save_same w spends a.refresh
    exact ⟨hc, fun e h => (congrArg (e ∈ ·) hi).mpr h⟩
  | _ => exact ⟨rfl, fun _ h => h⟩

theorem HeldRecent.mono {w w' : World} (h : HeldRecent peek w) (hh : w'.held = w.held)
    (hi : ∀ e ∈ w.issued, e ∈ w'.issued) : HeldRecent peek w' := by
  intro x hx
  obtain ⟨⟨τ, hτ, hle⟩, hage⟩ := h x (hh ▸ hx)
  exact ⟨⟨τ, hi _ hτ, hle⟩, hage⟩

/-- A step in which no time passes. -/
theorem Task.Timed.mono {w w' : World} {t : Task} (h : t.Timed w) (hc : w'.clock = w.clock)
    (hi : ∀ e ∈ w.issued, e ∈ w'.issued) : t.Timed w' := by
  refine ⟨fun spends sent ht => hc ▸ h.post spends sent ht, fun spends sent a x ht hx => ?_,
    fun spends a x ht hx => ?_⟩
  · obtain ⟨τ, hτ, hle⟩ := h.replied spends sent a x ht hx
    exact ⟨τ, hi _ hτ, hle⟩
  · obtain ⟨τ, hτ, hle⟩ := h.answered spends a x ht hx
    exact ⟨τ, hi _ hτ, hc ▸ hle⟩

/-- **A call puts no token in place that was issued longer ago than its request may take.** -/
theorem Task.Timed.step {me : ℕ} {w w' : World} {o : Outside} {t t' : Task}
    (hm : ∀ token, mint ≠ .given token) (h : t.Timed w) (hheld : HeldRecent peek w)
    (hs : Stepped mint peek me w o t w' t'.stage) : HeldRecent peek w' ∧ t'.Timed w' := by
  obtain ⟨call', stage'⟩ := t'
  obtain ⟨hclock, hissued⟩ := hs.clock
  have hended : ∀ {w : World} {r : Result}, (⟨call', .ended r⟩ : Task).Timed w :=
    ⟨by simp, by simp, by simp⟩
  cases hs with
  | leaves => exact ⟨hheld, hended⟩
  | hits => exact ⟨hheld, hended⟩
  | gives _ _ hg => exact absurd hg (hm _)
  | begins hs hl hh hg hn hu hp hr =>
    refine ⟨hheld, fun spends sent he => (hp spends sent he).le, fun spends sent a x he => ?_,
      fun spends a x he => ?_⟩
    · exact absurd he (hr _ _ _)
    · rw [show stage' = _ from he] at hn
      exact absurd hn (by simp [Stage.answer?])
  | asks hs => exact ⟨hheld, fun _ _ he => (Stage.post.inj he).2.ge, by simp, by simp⟩
  | @handled spends sent hs =>
    refine ⟨hheld.mono rfl hissued, by simp, fun spends' sent' a x he hx => ?_, by simp⟩
    obtain ⟨-, rfl, ha⟩ := Stage.replied.inj he
    obtain rfl := Reply.answers.inj ha
    exact ⟨w.clock, by simp [World.issue, hx], h.post spends _ hs⟩
  | unserved hs ha =>
    refine ⟨hheld, by simp, fun spends' sent' a x he => ?_, by simp⟩
    exact absurd (Stage.replied.inj he).2.2 (ha a)
  | @reads spends sent a hs ht =>
    refine ⟨hheld, by simp, by simp, fun spends' a' x he hx => ?_⟩
    obtain ⟨-, rfl⟩ := Stage.answered.inj he
    obtain ⟨τ, hτ, hle⟩ := h.replied spends sent _ x hs hx
    exact ⟨τ, hτ, Nat.le_trans ht (Nat.add_le_add_right hle _)⟩
  | fails => exact ⟨hheld.mono rfl hissued, hended⟩
  | strays => exact ⟨hheld.mono rfl hissued, hended⟩
  | @saves spends a hs => exact ⟨hheld.mono (save_same w spends a.refresh).2.2 hissued, hended⟩
  | @mints spends a token hs ha =>
    refine ⟨fun x hx => ?_, hended⟩
    obtain rfl := Option.some.inj hx
    obtain ⟨τ, hτ, hle⟩ := h.answered spends a token hs ha
    exact ⟨⟨τ, hissued _ hτ, by rw [(save_same w spends a.refresh).2.1]; exact hle⟩, rfl⟩

theorem keeps_prompt (hm : ∀ token, mint ≠ .given token) :
    (program mint peek).Keeps (fun s a => Prompt s a ∧ Mutex s)
      (fun s => HeldRecent peek s.shared) (fun _ => Task.Timed) (fun _ _ => True) where
  spawn {s i t} _ hI _ hi := by
    have hs : t.stage = .start := of_decide_eq_true hi
    exact ⟨hI.whole, by simp [hs], by simp [hs], by simp [hs]⟩
  spawnPair _ _ _ _ := ⟨trivial, trivial⟩
  self _ hI ht h := (hI.task _ _ ht).step hm hI.whole (run_cases h).2
  other _ hI _ h _ hu :=
    have hc := (run_cases h).2.clock
    ⟨(hI.task _ _ hu).mono hc.1 hc.2, trivial, trivial⟩
  outside {s e w'} hok hI h := by
    obtain ⟨-, hheld, hissued⟩ := Event.lock h
    have hi : ∀ e ∈ s.shared.issued, e ∈ w'.issued := fun _ h => hissued.symm ▸ h
    refine ⟨HeldRecent.mono hI.whole hheld hi, fun i t ht => ?_⟩
    have hT := hI.task i t ht
    cases e with
    | tick n =>
      obtain rfl := Option.some.inj h
      refine ⟨fun spends sent he => Nat.le_add_right_of_le (hT.post spends sent he), hT.replied,
        fun spends a x he => ?_⟩
      have hlock := hok.2.task i t ht (by rw [he]; rfl)
      have hno := hok.1 i hlock t ht
      rw [he] at hno
      exact absurd hno (by simp [Stage.saving])
    | login x =>
      obtain rfl := Option.some.inj h
      exact hT.mono rfl hi
    | refreshed r =>
      refine hT.mono ?_ hi
      simp only [program, Event.apply] at h
      split at h
      · split at h
        · obtain rfl := Option.some.inj h
          rfl
        · exact absurd h (by simp)
      · exact absurd h (by simp)
    | revoke r =>
      obtain rfl := Option.some.inj h
      exact hT.mono rfl hi
  restart _ _ := fun x hx => absurd hx (by simp [program])

/-- **A token given out without a mint is alive.** Let a `get` end in a step with the token held
already, and let that token's claims declare a lifetime: on the issuer's record the lifetime is not
over. The source mints its tokens, and a token file is written at once. -/
theorem cached_is_alive (hm : ∀ token, mint ≠ .given token) {file : TokenFile} {live : List String}
    (h : Reach (program mint peek).step Prompt (.boot (.boot file live)) s) {i : ℕ} {o : Outside}
    {token : String} (ht : s.task? i = some ⟨.get, .start⟩)
    (hs : (program mint peek).step s (.step i o) = some s')
    (hend : s'.task? i = some ⟨.get, .ended (.held token)⟩) {claims : Claims} {exp iat : Int}
    (hc : peek token = some claims) (he : claims.exp = some exp) (hi : claims.iat = some iat)
    (h₀ : iat ≤ exp) (h₁ : exp - iat ≤ i64Max) :
    ∃ τ, (token, τ) ∈ s.shared.issued ∧ s.shared.clock < τ + Client.secs (exp - iat).toNat := by
  have hk : (program mint peek).Keeps _ _ _ _ := keeps_prompt hm
  have hI := hk.reach (assume_mutex h)
    (Program.Invariant.boot fun x hx => absurd hx (by simp [World.boot]))
  -- the step is a hit: the token held is the one, and younger than it may be
  obtain ⟨held, hheld, rfl, hyoung⟩ : ∃ held, s.shared.held = some held ∧ held.token = token ∧
      held.maxAge.all (s.shared.clock - held.minted < ·) = true := by
    cases Program.step_cases hs with
    | @ran i o t t' w' ht' hrun =>
      obtain rfl := Option.some.inj (ht'.symm.trans ht)
      rw [Tasks.task?_put, if_pos rfl] at hend
      obtain rfl := Option.some.inj hend
      cases (run_cases hrun).2 with
      | leaves _ hr => exact absurd hr (by simp [Result.token?])
      | hits _ _ hh =>
        obtain ⟨held, hheld, hx⟩ := Option.bind_eq_some_iff.mp hh
        split at hx
        · exact ⟨held, hheld, Option.some.inj hx, ‹_›⟩
        · exact absurd hx (by simp)
      | begins _ _ _ hg => exact absurd hg (by simp [Stage.locked])
      | fails hl => exact absurd hl Bool.false_ne_true
  obtain ⟨⟨τ, hτ, hle⟩, hage⟩ := hI.whole held hheld
  refine ⟨τ, hτ, ?_⟩
  rw [hage, declaredMaxAge_eq hc he hi (by omega) h₁] at hyoung
  have hlt : s.shared.clock - held.minted < Client.secs (exp - iat - 60).toNat := by
    simpa using hyoung
  unfold Client.secs at hlt ⊢
  unfold tokenTimeout Client.secs at hle
  omega

/-- A five-minute token, a minute of which its mint took, is given out for four more. -/
theorem cached_is_alive_after_slow_mint : ∃ s,
    Reach (program .stored Sample.claims).step Prompt Sample.boot s ∧
    s.shared.clock = Client.secs 299 ∧
    ∃ τ, ("a0", τ) ∈ s.shared.issued ∧ s.shared.clock < τ + Client.secs 300 := by
  obtain ⟨s, hrun, hclock, ht, hend⟩ := exec_check (program .stored Sample.claims).step Prompt
    (.spawn 0 ⟨.get, .start⟩ :: List.replicate 3 (.step 0 (Sample.serve "a0" "r1")) ++
      [.outside (.tick (Client.secs 60))] ++ List.replicate 2 (.step 0 (Sample.serve "a0" "r1")) ++
      [.outside (.tick (Client.secs 239)), .spawn 1 ⟨.get, .start⟩]) Sample.boot
    (fun s => s.shared.clock = Client.secs 299 ∧ s.task? 1 = some ⟨.get, .start⟩ ∧
      (((program .stored Sample.claims).step s (.step 1 (Sample.serve "a1" "r2"))).bind
        (·.task? 1)) = some ⟨.get, .ended (.held "a0")⟩) (by decide +kernel)
  obtain ⟨s', hs, hend⟩ := Option.bind_eq_some_iff.mp hend
  exact ⟨s, hrun, hclock, cached_is_alive (by simp) hrun ht hs hend
    (rfl : Sample.claims "a0" = some ⟨none, some 1300, some 1000⟩) rfl rfl (by decide) (by decide)⟩

end Garret.Tokens
