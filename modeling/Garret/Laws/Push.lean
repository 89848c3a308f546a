import Garret.Client.Session

/-!
# A successful push leaves its closure in the cache

Three mechanisms keep a path of the closure on the server until `push_closure` returns:

* a path the first Negotiation reports present has a `pushed_at` within the debounce of it;
* a path uploaded since, by this client or another, has a row stamped at most an hour before its
  commit;
* an `exists` answer is given while the row is there.

So from the first Negotiation at `t` on, every row of the closure has a `pushed_at` of at least
`t - 3600` (`Recent`), and GC and prune, which spare what was pushed within `PUSH_GRACE`, remove none
of them while the clock is at most `t + 82800` (`held_step`). A path is then lost only if the push
of it fails, and that is counted (`Known`).
-/

namespace Garret

open Garret.Lib

/-! ## The server -/

namespace Sys

variable {δ : Type} {env : Env δ} {s s' : Sys} {a : Act}

/-- Every row of `hashes` was pushed since `t`, less the debounce. -/
structure Recent (hashes : List String) (t : Int) (s : Sys) : Prop where
  clock : t ≤ s.world.clock
  row : ∀ h ∈ hashes, ∀ row, s.world.row? h = some row → t - pushedAtDebounce ≤ row.pushedAt

/-- While a Negotiation at `t` protects it, `hash` has a row. -/
def Held (t : Int) (hash : String) (s : Sys) : Prop :=
  s.world.clock ≤ t + 82800 → ∃ row, s.world.row? hash = some row

/-- Nothing is deleted by hand, the clock does not go back, and an upload commits its row within an
hour of its timestamp. -/
structure Tame (s : Sys) (a : Act) : Prop where
  steady : Steady s a
  prompt : Prompt 3600 s a
  unforced : Unforced s a

instance (s : Sys) (a : Act) : Decidable (Tame s a) :=
  decidable_of_iff (Steady s a ∧ Prompt 3600 s a ∧ Unforced s a)
    ⟨fun h => ⟨h.1, h.2.1, h.2.2⟩, fun h => ⟨h.steady, h.prompt, h.unforced⟩⟩

/-- An action that runs no task and leaves the clock is tame. -/
theorem tame_outside (hr : a.runs = none) (hs : Steady s a) : Tame s a := by
  refine ⟨hs, ?_, ?_⟩
  · unfold Prompt
    rw [hr]
    trivial
  · unfold Unforced adminDeletes
    rw [hr]
    rfl

theorem recent_step {hashes : List String} {t : Int} (hi : Inv env s) (hr : Recent hashes t s)
    (ha : Tame s a) (h : s.step env a = some s') : Recent hashes t s' := by
  obtain ⟨e, hd, hc, -⟩ := step_effect hi h
  refine ⟨le_trans hr.clock (clock_mono hi ha.steady h), fun k hk row hrow => ?_⟩
  refine hd.pushedAt_ge ?_ ?_ (hr.row k hk) hrow
  · rintro obj at' rfl -
    have hp := hi.inserted_prompt ha.prompt hc
    have hle := hr.clock
    simp only [pushedAtDebounce]
    omega
  · rintro hs ms now rfl
    cases hc with
    | task ha ht hal => exact absurd (Task.allows_negotiated hal) id
    | negotiated ha hm =>
      have hle := hr.clock
      simp only [pushedAtDebounce]
      omega

/-- **A protected row is not collected.** -/
theorem held_step {hashes : List String} {t : Int} (hi : Inv env s) (ht : Timed s)
    (hr : Recent hashes t s) (ha : Tame s a) (h : s.step env a = some s') {hash : String}
    (hin : hash ∈ hashes) (hh : Held t hash s) : Held t hash s' := by
  intro hclock
  have hle : s.world.clock ≤ t + 82800 := le_trans (clock_mono hi ha.steady h) hclock
  obtain ⟨row, hrow⟩ := hh hle
  obtain ⟨e, hd, hc, -⟩ := step_effect hi h
  rcases hd.row_cases hash with heq | ⟨hrem, -⟩ | ⟨obj, at', -, -, hnew⟩ | ⟨x, y, -, hy, -⟩
  · exact ⟨row, heq.trans hrow⟩
  · -- what collects a row judges it by a time in the past
    obtain ⟨i, u, now, r, -, hu, hat, hrow', hlt⟩ := (hi.collected hd hc ha.unforced hrem).stale
    have hnow : now ≤ s.world.clock := ht i u hu now (Task.collectsAt_stamp hat)
    have hge := hr.row hash hin r hrow'
    simp only [pushedAtDebounce, pushGrace] at hge hlt
    omega
  · exact ⟨_, hnew⟩
  · exact ⟨y, hy⟩

/-- **A Negotiation protects what it reports present**, and what is missing has no row. -/
theorem recent_negotiate {hashes ms : List String} {io : Faults}
    (h : s.step env (.negotiate hashes io) = some s')
    (hm : (missing io hashes s.world.clock s.world.db).1 = .ok ms) :
    Recent hashes s.world.clock s' ∧
      ∀ hash ∈ hashes, hash ∉ ms → Held s.world.clock hash s' := by
  simp only [step] at h
  split at h
  · obtain rfl := Option.some.inj h
    rcases missing_cases (Prod.mk.eta (p := missing io hashes s.world.clock s.world.db)).symm with
      ⟨ms', hr, hms, ht, hpres⟩ | ⟨⟨e, he⟩, -⟩
    · obtain rfl : ms = ms' := Except.ok.inj (hm.symm.trans hr)
      refine ⟨⟨le_refl _, fun k hk row hrow => ?_⟩, fun k hk hout _ => ?_⟩
      · by_cases hin : k ∈ ms
        · -- a missing path has no row, before and after
          rw [hms] at hin
          have hnone := Option.isNone_iff_eq_none.mp (List.mem_filter.mp hin).2
          rcases ht.rows k with heq | ⟨r, hold, -⟩
          · rw [show (s.setDb _).world.row? k = none from heq.trans hnone] at hrow
            exact absurd hrow (by simp)
          · rw [hnone] at hold
            exact absurd hold (by simp)
        · obtain ⟨r, hr', hle⟩ := hpres k hk hin
          obtain rfl := Option.some.inj (hr'.symm.trans hrow)
          exact hle
      · obtain ⟨r, hr', -⟩ := hpres k hk hout
        exact ⟨r, hr'⟩
    · rw [hm] at he
      exact absurd he (by simp)
  · exact absurd h (by simp)

theorem task?_spawn {i : ℕ} {u : Task} (h : s.step env (.spawn i u) = some s') :
    s'.task? i = some u := by
  simp only [step] at h
  split at h
  · obtain rfl := Option.some.inj h
    rw [task?_put, if_pos rfl]
  · exact absurd h (by simp)

/-- An upload stays an upload of its path, and is acknowledged only while its row is there. -/
theorem upload_step (hi : Inv env s) (h : s.step env a = some s') (hne : a ≠ .crash) {i : ℕ}
    {u : Upload} (ht : s.task? i = some (.upload u)) :
    ∃ u', s'.task? i = some (.upload u') ∧ u'.hash = u.hash ∧
      (u'.acked = true → u.acked = true ∨ ∃ row, s'.world.row? u'.hash = some row) := by
  cases step_cases h with
  | @spawned j t hnone hinit =>
    have hij : i ≠ j := by
      rintro rfl
      rw [hnone] at ht
      exact absurd ht (by simp)
    exact ⟨u, by rw [task?_put, if_neg hij]; exact ht, rfl, Or.inl⟩
  | @ran a j o t t' w' ha hj hrun =>
    by_cases hij : i = j
    · subst hij
      obtain rfl := Option.some.inj (ht.symm.trans hj)
      cases hrun with
      | @upload u u' w' hrun =>
        refine ⟨u', by rw [task?_put, if_pos rfl], Upload.step_hash hrun, fun hack => Or.inr ?_⟩
        exact Upload.step_acked hrun
          (fun hash obj ho => ((hi.sound i _ ht).prepared hash obj ho).hash) hack
      | @dropped u u' w' hdrop =>
        obtain ⟨hh, hack⟩ := Upload.drop_hash hdrop
        refine ⟨u', by rw [task?_put, if_pos rfl], hh, fun h => ?_⟩
        rw [hack] at h
        exact absurd h (by simp)
    · exact ⟨u, by rw [task?_put, if_neg hij]; exact ht, rfl, Or.inl⟩
  | crashed => exact absurd rfl hne
  | ticked => exact ⟨u, ht, rfl, Or.inl⟩
  | outside => exact ⟨u, ht, rfl, Or.inl⟩

end Sys

/-! ## The batch -/

namespace Client

/-- Each own path is on the server, or still to push, or some path has failed. -/
def Pool.Covers (c : Setup) (s : Sys) (t : Int) (p : Pool) : Prop :=
  ∀ info ∈ c.own, Sys.Held t info.hash s ∨ info ∈ p.todo ∨ info ∈ p.jobs.map Job.info ∨
    ∃ path e, (path, Outcome.failed e) ∈ p.outcomes

/-- A request that waits is an upload of its path; once it is acknowledged, the path is on the
server. -/
def Job.Waits (c : Setup) (s : Sys) (t : Int) (job : Job) : Prop :=
  ∀ i, job.phase = .waiting i → ∃ u, s.task? i = some (.upload u) ∧ u.hash = job.info.hash ∧
    (u.acked = true → u.hash ∈ c.hashes → Sys.Held t u.hash s)

/-- What the client knows, after its first Negotiation at `t`. -/
def Known (c : Setup) (s : Sys) (t : Int) : Pc → Prop
  | .push _ pool => pool.Covers c s t ∧ ∀ job ∈ pool.jobs, job.Waits c s t
  | .recheck _ => ∀ info ∈ c.own, Sys.Held t info.hash s
  | .repush _ _ => ∀ info ∈ c.own, Sys.Held t info.hash s
  | .done (.ok summary) => summary.failed = 0 → ∀ info ∈ c.own, Sys.Held t info.hash s
  | _ => True

variable {c : Setup} {s : Sys} {t : Int} {p : Pool} {k : ℕ} {job : Job}

theorem mem_hashes {info : PathInfo} (h : info ∈ c.own) : info.hash ∈ c.hashes :=
  List.mem_map_of_mem h

/-- A job that goes on keeps its path in the batch. -/
theorem map_info_set {l : List Job} (hjob : l[k]? = some job) (job' : Job)
    (hinfo : job'.info = job.info) : (l.set k job').map Job.info = l.map Job.info := by
  obtain ⟨hlt, rfl⟩ := List.getElem?_eq_some_iff.mp hjob
  rw [List.map_set, hinfo, ← List.getElem_map Job.info, List.set_getElem_self]
  rw [List.length_map]
  exact hlt

/-- **A round of one path**: unless it ends with an acknowledgment, or fails, its path stays in the
batch. -/
theorem Pool.Covers.settle (h : p.Covers c s t) (hjob : p.jobs[k]? = some job) {turn : Turn}
    (hok : ∀ o, turn = .done (.ok o) → job.info ∈ c.own → Sys.Held t job.info.hash s) :
    (p.settle k job turn).Covers c s t := by
  intro info hin
  cases turn with
  | again wait t' =>
    have hmap := map_info_set hjob { job with attempt := t', phase := .ready } rfl
    have hold := h info hin
    rw [← hmap] at hold
    exact hold
  | done result =>
    cases result with
    | error e =>
      exact Or.inr (Or.inr (Or.inr ⟨job.info.path, e, List.mem_append_right _
        (List.mem_singleton.mpr rfl)⟩))
    | ok o =>
      rcases h info hin with hh | htodo | hjobs | ⟨path, e, hfail⟩
      · exact Or.inl hh
      · exact Or.inr (Or.inl htodo)
      · obtain ⟨j, hj, rfl⟩ := List.mem_map.mp hjobs
        rcases mem_eraseIdx_or hjob hj with rfl | hj
        · exact Or.inl (hok o rfl hin)
        · exact Or.inr (Or.inr (Or.inl (List.mem_map_of_mem hj)))
      · exact Or.inr (Or.inr (Or.inr ⟨path, e, List.mem_append_left _ hfail⟩))

/-- After a round nothing new waits. -/
theorem Pool.waits_settle (h : ∀ j ∈ p.jobs, Job.Waits c s t j) {turn : Turn} :
    ∀ j ∈ (p.settle k job turn).jobs, j.Waits c s t := by
  intro j hj
  cases turn with
  | done result =>
    cases result with
    | ok o => exact h j (List.mem_of_mem_eraseIdx hj)
    | error e => exact h j (List.mem_of_mem_eraseIdx hj)
  | again wait t' =>
    rcases List.mem_or_eq_of_mem_set hj with hj | rfl
    · exact h j hj
    · exact fun i hi => absurd hi (by simp)

theorem Pool.Covers.launch {p' : Pool} {workers maxRetries now : ℕ}
    (hl : p.launch workers maxRetries now = some p') (h : p.Covers c s t)
    (hw : ∀ j ∈ p.jobs, j.Waits c s t) :
    p'.Covers c s t ∧ ∀ j ∈ p'.jobs, j.Waits c s t := by
  unfold Pool.launch at hl
  split at hl
  · exact absurd hl (by simp)
  · rename_i first rest htodo
    split at hl
    · obtain rfl := Option.some.inj hl
      refine ⟨fun info hin => ?_, fun j hj => ?_⟩
      · rcases h info hin with hh | hmem | hjobs | hfail
        · exact Or.inl hh
        · rw [htodo] at hmem
          rcases List.mem_cons.mp hmem with rfl | hmem
          · exact Or.inr (Or.inr (Or.inl (List.mem_map.mpr
              ⟨_, List.mem_append_right _ (List.mem_singleton.mpr rfl), rfl⟩)))
          · exact Or.inr (Or.inl hmem)
        · refine Or.inr (Or.inr (Or.inl ?_))
          rw [List.map_append]
          exact List.mem_append_left _ hjobs
        · exact Or.inr (Or.inr (Or.inr hfail))
      · rcases List.mem_append.mp hj with hj | hj
        · exact hw j hj
        · obtain rfl := List.mem_singleton.mp hj
          exact fun i hi => absurd hi (by simp)
    · exact absurd hl (by simp)

/-- When a batch is over and nothing in it failed, every own path is on the server. -/
theorem Pool.Covers.finished (h : p.Covers c s t) (hf : p.finished = true)
    (hok : (tally p.outcomes p.narBytes).failed = 0) :
    ∀ info ∈ c.own, Sys.Held t info.hash s := by
  intro info hin
  obtain ⟨htodo, hjobs⟩ : p.todo = [] ∧ p.jobs = [] := by simpa [Pool.finished] using hf
  rcases h info hin with hh | hmem | hmem | ⟨path, e, hfail⟩
  · exact hh
  · rw [htodo] at hmem
    exact absurd hmem List.not_mem_nil
  · rw [hjobs] at hmem
    exact absurd hmem List.not_mem_nil
  · exact absurd hfail (tally_failed hok)

/-! ## The server moves -/

variable {δ : Type} {env : Env δ} {s' : Sys} {a : Act} {pc : Pc}

/-- **What the client knows survives the server's actions.** -/
theorem Known.server (hi : Sys.Inv env s) (hti : Sys.Timed s) (hr : Sys.Recent c.hashes t s)
    (ha : Sys.Tame s a) (h : s.step env a = some s') (hne : a ≠ .crash) (hk : Known c s t pc) :
    Known c s' t pc := by
  have hheld : ∀ {hash}, hash ∈ c.hashes → Sys.Held t hash s → Sys.Held t hash s' :=
    fun hin hh => Sys.held_step hi hti hr ha h hin hh
  have hall : (∀ info ∈ c.own, Sys.Held t info.hash s) → ∀ info ∈ c.own, Sys.Held t info.hash s' :=
    fun hh info hin => hheld (mem_hashes hin) (hh info hin)
  cases pc with
  | negotiate => trivial
  | push pushedAny pool =>
    obtain ⟨hcov, hw⟩ := hk
    refine ⟨fun info hin => (hcov info hin).imp_left (hheld (mem_hashes hin)), fun j hj i hi' => ?_⟩
    obtain ⟨u, hu, hh, hack⟩ := hw j hj i hi'
    obtain ⟨u', hu', hh', hack'⟩ := Sys.upload_step hi h hne hu
    refine ⟨u', hu', hh'.trans hh, fun hx hin => ?_⟩
    rcases hack' hx with hx | hrow
    · rw [hh'] at hin ⊢
      exact hheld hin (hack hx hin)
    · exact fun _ => hrow
  | recheck summary => exact hall hk
  | repush summary pool => exact hall hk
  | done result =>
    cases result with
    | error e => trivial
    | ok summary => exact fun h0 => hall (hk h0)

/-- **A crash of the server cuts every connection**, and leaves the rows. -/
theorem Known.crash (h : s.step env .crash = some s') (hk : Known c s t pc) :
    Known c s' t pc.cut := by
  obtain rfl := Option.some.inj h
  cases pc with
  | push pushedAny pool =>
    obtain ⟨hcov, -⟩ := hk
    refine ⟨fun info hin => ?_, fun j hj i hi => ?_⟩
    · have hmap : pool.cut.jobs.map Job.info = pool.jobs.map Job.info := by
        rw [Pool.cut, List.map_map]
        refine List.map_congr_left fun j _ => ?_
        rw [Function.comp]
        split <;> rfl
      have hold := hcov info hin
      rw [← hmap] at hold
      exact hold
    · obtain ⟨j', -, rfl⟩ := List.mem_map.mp hj
      split at hi
      · exact absurd hi (by simp)
      · rename_i hnot
        exact absurd hi (hnot i)
  | negotiate => trivial
  | recheck summary => exact hk
  | repush summary pool => exact hk
  | done result =>
    cases result with
    | error e => trivial
    | ok summary => exact hk

/-! ## The client moves -/

namespace Session

/-- The guard of a move is that of the server's action in it. -/
def Tame (s : Session) : Move → Prop
  | .server a => Sys.Tame s.sys a
  | _ => True

instance (s : Session) (m : Move) : Decidable (Tame s m) := by
  cases m <;> unfold Tame <;> infer_instance

/-- What holds of every session. -/
structure Good (env : Env δ) (c : Setup) (s : Session) : Prop where
  inv : Sys.Inv env s.sys
  timed : Sys.Timed s.sys
  known : ∀ t, s.negotiatedAt = some t → Sys.Recent c.hashes t s.sys ∧ Known c s.sys t s.pc
  asked : s.negotiatedAt = none → s.pc = .negotiate ∨ ∃ e, s.pc = .done (.error e)

variable {s s' : Session}

/-- The client moves and the server does not. -/
theorem Good.client (hg : Good env c s) {pc : Pc}
    (hk : ∀ t, s.negotiatedAt = some t → Known c s.sys t s.pc → Known c s.sys t pc)
    (hn : s.negotiatedAt = none → pc = .negotiate ∨ ∃ e, pc = .done (.error e)) :
    Good env c { s with pc := pc } :=
  ⟨hg.inv, hg.timed, fun t ht => ⟨(hg.known t ht).1, hk t ht (hg.known t ht).2⟩, hn⟩

/-- The server moves, and the client with it. -/
theorem Good.served (hg : Good env c s) {sys : Sys} {a : Act} {pc : Pc} (ha : Sys.Tame s.sys a)
    (h : s.sys.step env a = some sys)
    (hk : ∀ t, s.negotiatedAt = some t → Known c s.sys t s.pc → Known c sys t pc)
    (hn : s.negotiatedAt = none → pc = .negotiate ∨ ∃ e, pc = .done (.error e)) :
    Good env c { s with sys := sys, pc := pc } :=
  ⟨Sys.inv_step hg.inv h, Sys.timed_step hg.inv hg.timed ha.steady h,
    fun t ht => ⟨Sys.recent_step hg.inv (hg.known t ht).1 ha h, hk t ht (hg.known t ht).2⟩, hn⟩

/-- There is a batch only after the first Negotiation. -/
theorem Good.pool_asked (hg : Good env c s) {pool : Pool} (hp : s.pc.pool? = some pool) :
    s.negotiatedAt ≠ none := by
  intro hnone
  rcases hg.asked hnone with hpc | ⟨e, hpc⟩
  · rw [hpc] at hp
    exact absurd hp (by simp [Pc.pool?])
  · rw [hpc] at hp
    exact absurd hp (by simp [Pc.pool?])

/-- A move of the batch keeps what the client knows. -/
theorem Known.setPool {sys : Sys} {pc : Pc} {pool pool' : Pool} (hp : pc.pool? = some pool)
    (hk : Known c sys t pc)
    (hmove : pool.Covers c sys t → (∀ j ∈ pool.jobs, j.Waits c sys t) →
      pool'.Covers c sys t ∧ ∀ j ∈ pool'.jobs, j.Waits c sys t) :
    Known c sys t (pc.setPool pool') := by
  cases pc with
  | push pushedAny p =>
    obtain rfl := Option.some.inj hp
    exact hmove hk.1 hk.2
  | repush summary p => exact hk
  | _ => exact absurd hp (by simp [Pc.pool?])

theorem withJob_cases {k : ℕ} {f : Pool → Job → Option Session} (h : s.withJob k f = some s') :
    ∃ pool job, s.pc.pool? = some pool ∧ pool.jobs[k]? = some job ∧ f pool job = some s' := by
  obtain ⟨pool, hp, h⟩ := Option.bind_eq_some_iff.mp h
  obtain ⟨job, hj, h⟩ := Option.bind_eq_some_iff.mp h
  exact ⟨pool, job, hp, hj, h⟩

/-- **A round of one path keeps a good session good**, if it ends well only while the path is on the
server. -/
theorem Good.settled (hg : Good env c s) {k : ℕ} {pool : Pool} {job : Job} {turn : Turn}
    (hp : s.pc.pool? = some pool) (hj : pool.jobs[k]? = some job)
    (hok : ∀ t o, Job.Waits c s.sys t job → turn = .done (.ok o) → job.info ∈ c.own →
      Sys.Held t job.info.hash s.sys) :
    Good env c { s with pc := s.pc.setPool (pool.settle k job turn) } := by
  refine hg.client (fun t ht hk => Known.setPool hp hk fun hcov hw => ?_) fun hnone =>
    absurd hnone (hg.pool_asked hp)
  have hjw := hw job (List.mem_of_getElem? hj)
  exact ⟨hcov.settle hj fun o ho hin => hok t o hjw ho hin, Pool.waits_settle hw⟩

/-- An answer that ends a push well acknowledges the path. -/
theorem answer_held {job : Job} {sys : Sys} {id : String} {response : HttpResponse} {luck : Luck}
    {o : Outcome} (hr : job.phase.response id sys = some response)
    (ho : job.attempt.settle luck.now luck.rand luck.renewal response.read = .done (.ok o))
    (hw : Job.Waits c sys t job) (hin : job.info ∈ c.own) : Sys.Held t job.info.hash sys := by
  unfold Phase.response at hr
  split at hr
  · rename_i task hphase
    obtain ⟨u, hu, hh, hack⟩ := hw task hphase
    split at hr
    · rename_i hash reply hdone
      obtain rfl : u = .done hash reply := by
        rw [hu] at hdone
        simpa using hdone
      have hread := (Try.settle_ok ho).imp HttpResponse.read_ok HttpResponse.read_ok
      rw [← hh]
      exact hack (Reply.response_acks hr hread) (by rw [hh]; exact mem_hashes hin)
    · exact absurd hr (by simp)
  · exact absurd hr (by simp)

/-- After the first Negotiation the missing paths are to be pushed, and the others are held. -/
theorem known_startPush {sys : Sys} {ms : List String}
    (hheld : ∀ hash ∈ c.hashes, hash ∉ ms → Sys.Held t hash sys) :
    Known c sys t (.startPush (retainMissing c.own ms)) := by
  unfold Pc.startPush
  split
  · trivial
  · rename_i pool hstart
    obtain ⟨order, hord, rfl⟩ := Option.map_eq_some_iff.mp hstart
    refine ⟨fun info hin => ?_, fun j hj => absurd hj List.not_mem_nil⟩
    by_cases hm : info.hash ∈ ms
    · exact Or.inr (Or.inl (mem_referencesFirst hord (mem_retainMissing.mpr ⟨hin, hm⟩)))
    · exact Or.inl (hheld _ (mem_hashes hin) hm)

theorem known_collect {sys : Sys} {pc pc' : Pc} (h : pc.collect = some pc')
    (hk : Known c sys t pc) : Known c sys t pc' := by
  cases pc with
  | push pushedAny pool =>
    simp only [Pc.collect] at h
    split at h
    · rename_i hfin
      split at h
      · rename_i hclean
        obtain rfl := Option.some.inj h
        simp only [Bool.and_eq_true, beq_iff_eq] at hclean
        exact hk.1.finished hfin hclean.2
      · obtain rfl := Option.some.inj h
        exact fun h0 => hk.1.finished hfin h0
    · exact absurd h (by simp)
  | repush summary pool =>
    simp only [Pc.collect] at h
    split at h
    · obtain rfl := Option.some.inj h
      exact fun _ => hk
    · exact absurd h (by simp)
  | _ => exact absurd h (by simp [Pc.collect])

theorem collect_pool {pc pc' : Pc} (h : pc.collect = some pc') : ∃ pool, pc.pool? = some pool := by
  cases pc with
  | push pushedAny pool => exact ⟨pool, rfl⟩
  | repush summary pool => exact ⟨pool, rfl⟩
  | _ => exact absurd h (by simp [Pc.collect])

/-- **Every move keeps a session good.** -/
theorem good_step (hpush : c.dryRun = false) (hg : Good env c s) {m : Move} (hm : Tame s m)
    (h : s.step env c m = some s') : Good env c s' := by
  cases m with
  | server a =>
    obtain ⟨sys, hs, rfl⟩ := Option.map_eq_some_iff.mp h
    by_cases hcrash : a = .crash
    · subst hcrash
      refine hg.served hm hs (fun t ht hk => hk.crash hs) fun hnone => ?_
      rcases hg.asked hnone with hpc | ⟨e, hpc⟩
      · exact Or.inl (by rw [hpc]; rfl)
      · exact Or.inr ⟨e, by rw [hpc]; rfl⟩
    · rw [Pc.after_of_ne hcrash]
      exact hg.served hm hs (fun t ht hk =>
        hk.server hg.inv hg.timed (hg.known t ht).1 hm hs hcrash) hg.asked
  | ask io =>
    simp only [step] at h
    have htame : Sys.Tame s.sys (.negotiate c.hashes io) := Sys.tame_outside rfl trivial
    split at h
    · obtain ⟨sys, hs, rfl⟩ := Option.map_eq_some_iff.mp h
      split
      · exact hg.served htame hs (fun t ht hk => trivial) fun _ => Or.inr ⟨_, rfl⟩
      · rename_i ms hms
        obtain ⟨hrec, hheld⟩ := Sys.recent_negotiate hs hms
        refine ⟨Sys.inv_step hg.inv hs, Sys.timed_step hg.inv hg.timed htame.steady hs,
          fun t ht => ?_, fun hnone => absurd hnone (by simp)⟩
        obtain rfl := Option.some.inj ht
        refine ⟨hrec, ?_⟩
        rw [hpush]
        exact known_startPush hheld
    · rename_i summary hpc
      obtain ⟨sys, hs, rfl⟩ := Option.map_eq_some_iff.mp h
      have hasked : s.negotiatedAt ≠ none := by
        intro hnone
        rcases hg.asked hnone with hpc' | ⟨e, hpc'⟩
        · rw [hpc] at hpc'
          exact absurd hpc' (by simp)
        · rw [hpc] at hpc'
          exact absurd hpc' (by simp)
      split
      · exact hg.served htame hs (fun t ht hk => trivial) fun _ => Or.inr ⟨_, rfl⟩
      · refine hg.served htame hs (fun t ht hk => ?_) fun hnone => absurd hnone hasked
        have hall : ∀ info ∈ c.own, Sys.Held t info.hash sys := by
          have := hk.server hg.inv hg.timed (hg.known t ht).1 htame hs (by simp)
          rw [hpc] at this
          exact this
        unfold Pc.startRepush
        split
        · exact fun _ => hall
        · split
          · trivial
          · exact hall
    · exact absurd h (by simp)
  | unasked message =>
    simp only [step] at h
    split at h
    · obtain rfl := Option.some.inj h
      exact hg.client (fun t ht hk => trivial) fun _ => Or.inr ⟨_, rfl⟩
    · obtain rfl := Option.some.inj h
      exact hg.client (fun t ht hk => trivial) fun _ => Or.inr ⟨_, rfl⟩
    · exact absurd h (by simp)
  | launch now =>
    obtain ⟨pool', hl, rfl⟩ := Option.map_eq_some_iff.mp h
    obtain ⟨pool, hp, hl⟩ := Option.bind_eq_some_iff.mp hl
    exact hg.client (fun t ht hk => Known.setPool hp hk fun hcov hw => hcov.launch hl hw)
      fun hnone => absurd hnone (hg.pool_asked hp)
  | tokenless k message =>
    obtain ⟨pool, job, hp, hj, h⟩ := withJob_cases h
    split at h
    · obtain rfl := Option.some.inj h
      exact hg.settled hp hj fun t o hw ho => absurd ho (by simp)
    · exact absurd h (by simp)
  | send k task =>
    obtain ⟨pool, job, hp, hj, h⟩ := withJob_cases h
    split at h
    · obtain ⟨sys, hs, rfl⟩ := Option.map_eq_some_iff.mp h
      have htame : Sys.Tame s.sys (.spawn task (.upload (.start job.info.hash c.subject))) :=
        Sys.tame_outside rfl trivial
      refine hg.served htame hs (fun t ht hk => ?_) fun hnone => absurd hnone (hg.pool_asked hp)
      refine Known.setPool hp (hk.server hg.inv hg.timed (hg.known t ht).1 htame hs (by simp))
        fun hcov hw => ⟨fun info hin => ?_, fun j hj' => ?_⟩
      · have hmap := map_info_set hj { job with phase := .waiting task } rfl
        have hold := hcov info hin
        rw [← hmap] at hold
        exact hold
      · rcases List.mem_or_eq_of_mem_set hj' with hj' | rfl
        · exact hw j hj'
        · -- the new task is an upload of the path, and has not answered
          intro i hi
          obtain rfl : task = i := by simpa using hi
          exact ⟨.start job.info.hash c.subject, Sys.task?_spawn hs, rfl,
            fun hack => absurd hack (by simp [Upload.acked])⟩
    · exact absurd h (by simp)
  | answer k id luck =>
    obtain ⟨pool, job, hp, hj, h⟩ := withJob_cases h
    obtain ⟨response, hr, rfl⟩ := Option.map_eq_some_iff.mp h
    exact hg.settled hp hj fun t o hw ho hin => answer_held hr ho hw hin
  | fault k e luck =>
    obtain ⟨pool, job, hp, hj, h⟩ := withJob_cases h
    obtain rfl := Option.some.inj h
    exact hg.settled hp hj fun t o hw ho => absurd ho Try.settle_error_not_ok
  | collect =>
    obtain ⟨pc, hpc, rfl⟩ := Option.map_eq_some_iff.mp h
    obtain ⟨pool, hp⟩ := collect_pool hpc
    exact hg.client (fun t ht hk => known_collect hpc hk)
      fun hnone => absurd hnone (hg.pool_asked hp)

/-- **A successful push leaves its whole closure in the cache.** When `push_closure` has returned
without an error and without a failed path, and the server's clock is at most 82800 s past the first
Negotiation, every path of the closure that no upstream key signs has a row; whatever other clients,
eviction passes, prunes, pins and sweeps did meanwhile. -/
theorem pushed_closure_present (env : Env δ) (c : Setup) (hpush : c.dryRun = false) (db : Db)
    (bucket : Table String Bytes) (clock : Int) {s : Session}
    (h : Reach (step env c) Tame (start (Sys.boot db bucket clock)) s) {summary : Summary}
    (hdone : s.pc = .done (.ok summary)) (hok : summary.failed = 0) :
    ∃ t, s.negotiatedAt = some t ∧ (s.sys.world.clock ≤ t + 82800 →
      ∀ info ∈ c.closure, signedBy info.signatures c.upstreamKeys = false →
        ∃ row, s.sys.world.row? info.hash = some row) := by
  have hgood : Good env c s := h.invariant (fun _ _ _ hg hm hs => good_step hpush hg hm hs)
    ⟨Sys.inv_boot _ _ _, Sys.timed_boot _ _ _, fun t ht => absurd ht (by simp [start]),
      fun _ => Or.inl rfl⟩
  cases ht : s.negotiatedAt with
  | none =>
    rcases hgood.asked ht with hpc | ⟨e, hpc⟩
    · rw [hdone] at hpc
      exact absurd hpc (by simp)
    · rw [hdone] at hpc
      exact absurd hpc (by simp)
  | some t =>
    refine ⟨t, rfl, fun hclock info hin hsig => ?_⟩
    have hk := (hgood.known t ht).2
    rw [hdone] at hk
    exact hk hok info (mem_partitionUpstream.mpr ⟨hin, hsig⟩) hclock

end Session

end Client

namespace Sample

/-- The example's path and one an upstream key signs. -/
def setup : Client.Setup where
  closure := [⟨preamble.storePath, 6, [], []⟩,
    ⟨"/nix/store/" ++ libHash ++ "-lib", 6, [], ["cache.nixos.org-1:c2ln"]⟩]
  upstreamKeys := ["cache.nixos.org-1"]
  dryRun := false
  jobs := 1
  maxRetries := 3
  subject := "ci"

end Sample

/-- The summary a push ended with. -/
def Client.Pc.summary? : Client.Pc → Option Client.Summary
  | .done (.ok summary) => some summary
  | _ => none

theorem Client.Pc.summary?_eq_some {pc : Client.Pc} {summary : Client.Summary}
    (h : pc.summary? = some summary) : pc = .done (.ok summary) := by
  unfold summary? at h
  split at h
  · rw [Option.some.inj h]
  · exact absurd h (by simp)

namespace Client.Session

/-- A push into an empty cache: the path is uploaded, and found by the second Negotiation. -/
theorem pushed_closure_present_created : ∃ s summary row,
    Reach (step Sample.env Sample.setup) Tame (start (Sys.boot .empty ∅ 1000)) s ∧
    s.pc = .done (.ok summary) ∧ summary.pushed = 1 ∧
    s.sys.world.row? (hashOfStorePath Sample.preamble.storePath) = some row := by
  obtain ⟨s, hs, hpc, hat, hclock⟩ := exec_check (step Sample.env Sample.setup) Tame
    ([.ask noFaults, .launch 0, .send 0 7] ++
      List.replicate 7 (.server (.step 7 { Oracle.calm with transfer := Sample.upload })) ++
      [.answer 0 "" ⟨0, 0, .ok false⟩, .collect, .ask noFaults])
    (start (Sys.boot .empty ∅ 1000))
    (fun s => (s.pc.summary?.any fun summary =>
      decide (summary.failed = 0 ∧ summary.pushed = 1)) = true ∧ s.negotiatedAt = some 1000 ∧ s.sys.world.clock ≤ 1000 + 82800)
    (by decide +kernel)
  obtain ⟨summary, hsum, hcount⟩ := (Option.any_eq_true _ _).mp hpc
  obtain ⟨hfailed, hpushed⟩ := of_decide_eq_true hcount
  have hdone := Pc.summary?_eq_some hsum
  obtain ⟨t, ht, hrows⟩ := pushed_closure_present Sample.env Sample.setup rfl .empty ∅ 1000 hs
    hdone hfailed
  obtain rfl := Option.some.inj (hat.symm.trans ht)
  obtain ⟨row, hrow⟩ := hrows hclock _ List.mem_cons_self rfl
  exact ⟨s, summary, row, hs, hdone, hpushed, hrow⟩

end Client.Session

end Garret
