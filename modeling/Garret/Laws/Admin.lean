import Garret.Admin.Protocol
import Mathlib.Tactic.DeriveCountable

/-!
# One line in, one line back

What the admin protocol promises of a connection.

* `session_replies`: any text at all. Each line taken up is answered, in order; each whole line that
  comes back reads as the response in its place; a line that is no request changes nothing, and the
  connection goes on. Nothing is left out unless the connection breaks.
* `request_dispatch`: both ends. What `request` returns is what the command answered, an error's
  message as an error, or says that no answer came; the command is done once at most.

Both hold of any format of the messages that keeps its laws, and of a Pusher that does other things
between the lines.
-/

namespace Garret.Admin

open Garret.Lib

section

variable {ο σ : Type} {p : Pusher ο σ} {turns : ℕ → Turn ο} {s s' : σ}

/-! ## The Pusher's end -/

/-- The replies to lines, in order, from the `n`-th line of a connection on, and the state they
leave. -/
inductive Replies (p : Pusher ο σ) (turns : ℕ → Turn ο) :
    ℕ → List (List Char) → σ → List Response → σ → Prop
  | done (n : ℕ) (s : σ) : Replies p turns n [] s [] s
  | request {n : ℕ} {line : List Char} {r : Request} (hr : p.requests.parse line = some r)
      {rest : List (List Char)} {s s' : σ} {rs : List Response}
      (hrest : Replies p turns (n + 1) rest
        (dispatch p.toHandlers r (turns n).outside (p.meanwhile (turns n).outside s)).2 rs s') :
      Replies p turns n (line :: rest) s
        ((dispatch p.toHandlers r (turns n).outside (p.meanwhile (turns n).outside s)).1 :: rs) s'
  | refused {n : ℕ} {line : List Char} (hr : p.requests.parse line = none)
      {rest : List (List Char)} {s s' : σ} {rs : List Response}
      (hrest : Replies p turns (n + 1) rest (p.meanwhile (turns n).outside s) rs s') :
      Replies p turns n (line :: rest) s (badRequest (p.reason line) :: rs) s'

theorem Replies.length {n : ℕ} {lines : List (List Char)} {rs : List Response}
    (h : Replies p turns n lines s rs s') : rs.length = lines.length := by
  induction h with
  | done => rfl
  | request _ _ ih => rw [List.length_cons, List.length_cons, ih]
  | refused _ _ ih => rw [List.length_cons, List.length_cons, ih]

/-- A line is answered before the lines after it. -/
theorem Replies.cons {n : ℕ} (line : List Char) {rest : List (List Char)} {rs : List Response}
    (h : Replies p turns (n + 1) rest
      (answer p line (turns n).outside (p.meanwhile (turns n).outside s)).2 rs s') :
    Replies p turns n (line :: rest) s
      ((answer p line (turns n).outside (p.meanwhile (turns n).outside s)).1 :: rs) s' := by
  cases hr : p.requests.parse line with
  | some r =>
    simp only [answer, hr] at h ⊢
    exact .request hr h
  | none =>
    simp only [answer, hr] at h ⊢
    exact .refused hr h

theorem complete_written (hlines : ∀ r, '\n' ∉ p.responses.print r) (r : Response)
    (out : List Char) :
    Lines.complete (written p r ++ out) = p.responses.print r :: Lines.complete out := by
  rw [written, List.append_assoc, List.singleton_append, Lines.complete_line (hlines r)]

/-- A reply that breaks off has come whole, or no line of it has. -/
theorem complete_take_written (hlines : ∀ r, '\n' ∉ p.responses.print r) (r : Response) (k : ℕ) :
    ∃ whole, whole <+: [r] ∧
      Lines.complete ((written p r).take k) = whole.map p.responses.print := by
  rcases List.prefix_concat_iff.mp (List.take_prefix k (written p r)) with heq | hshort
  · refine ⟨[r], List.prefix_rfl, ?_⟩
    have hwhole := complete_written hlines r []
    rw [List.append_nil] at hwhole
    rw [heq]
    exact hwhole
  · exact ⟨[], List.nil_prefix,
      Lines.complete_of_not_mem fun hn => hlines r (hshort.mem hn)⟩

/-- The loop answers the lines until the connection breaks, and writes the replies. -/
theorem serveLines_replies (hlines : ∀ r, '\n' ∉ p.responses.print r) (turns : ℕ → Turn ο) :
    ∀ (lines : List (List Char)) (n : ℕ) (s : σ), ∃ served rest rs whole,
      lines = served ++ rest ∧ Replies p turns n served s rs (serveLines p turns n lines s).2 ∧
      Lines.complete (serveLines p turns n lines s).1 = whole.map p.responses.print ∧
      whole <+: rs ∧ rs.length ≤ whole.length + 1 ∧
      ((∀ i, (turns i).breaks = none) → rest = [] ∧ whole = rs)
  | [], n, s => ⟨[], [], [], [], rfl, .done n s, rfl, List.prefix_rfl, by simp, fun _ => ⟨rfl, rfl⟩⟩
  | line :: lines, n, s => by
    have hone : Replies p turns n [line] s
        [(answer p line (turns n).outside (p.meanwhile (turns n).outside s)).1]
        (answer p line (turns n).outside (p.meanwhile (turns n).outside s)).2 :=
      .cons line (.done (n + 1) _)
    simp only [serveLines]
    cases hbreak : (turns n).breaks with
    | some k =>
      obtain ⟨whole, hwhole, hcomplete⟩ := complete_take_written hlines
        (answer p line (turns n).outside (p.meanwhile (turns n).outside s)).1 k
      refine ⟨[line], lines, _, whole, rfl, hone, hcomplete, hwhole, ?_, fun hnone => ?_⟩
      · rw [List.length_singleton]
        omega
      · exact absurd (hnone n) (by simp [hbreak])
    | none =>
      obtain ⟨served, rest, rs, whole, rfl, hrs, hcomplete, hwhole, hlength, hall⟩ :=
        serveLines_replies hlines turns lines (n + 1)
          (answer p line (turns n).outside (p.meanwhile (turns n).outside s)).2
      refine ⟨line :: served, rest, _ :: rs, _ :: whole, rfl, .cons line hrs, ?_,
        (List.prefix_cons_inj _).mpr hwhole, Nat.succ_le_succ hlength, fun hnone => ?_⟩
      · rw [complete_written hlines, hcomplete, List.map_cons]
      · obtain ⟨hrest, heq⟩ := hall hnone
        exact ⟨hrest, congrArg _ heq⟩

/-- **Whatever is written on a connection, each of its lines is answered by one line**, in order,
until the connection breaks. The whole lines that come back read as the replies they are, and only
the last reply can be broken off; a reply to a request is what the command answers in the state it
finds, and a line that is no request is refused and changes nothing. -/
theorem session_replies (hresponses : p.responses.Lawful Set.univ) (turns : ℕ → Turn ο)
    (input : List Char) (s : σ) :
    ∃ served rest rs whole, Lines.cut input = served ++ rest ∧
      Replies p turns 0 served s rs (handle p turns input s).2 ∧ rs.length = served.length ∧
      (Lines.complete (handle p turns input s).1).map p.responses.parse = whole.map some ∧
      whole <+: rs ∧ rs.length ≤ whole.length + 1 ∧
      ((∀ i, (turns i).breaks = none) → rest = [] ∧ whole = rs) := by
  obtain ⟨served, rest, rs, whole, hcut, hrs, hcomplete, hwhole, hlength, hall⟩ :=
    serveLines_replies (fun r => (hresponses.one_line r trivial).not_mem) turns (Lines.cut input)
      0 s
  refine ⟨served, rest, rs, whole, hcut, hrs, hrs.length, ?_, hwhole, hlength, hall⟩
  rw [show (handle p turns input s).1 = (serveLines p turns 0 (Lines.cut input) s).1 from rfl,
    hcomplete, List.map_map]
  exact List.map_congr_left fun r _ => hresponses.reads r trivial

/-! ## Both ends -/

/-- What the client makes of a response. -/
def received : Response → Except RequestError Response
  | .error message => .error (.answered message)
  | response => .ok response

/-- No answer has come. -/
def Lost (x : Except RequestError Response) : Prop :=
  x = .error .io ∨ x = .error .closed ∨ x = .error .malformed

theorem receive_of_parse {x : Response} {line rest : List Char} {reset : Bool}
    (hread : Lines.readLine rest = line) (hne : line ≠ []) (hend : reset = true → '\n' ∈ line)
    (hparse : p.responses.parse line = some x) : receive p rest reset = received x := by
  simp only [receive, hread, hparse]
  rw [if_neg (fun h => h.2 (hend h.1)), if_neg (by simpa using hne)]
  cases x <;> rfl

theorem receive_written (hp : p.responses.Closed) (x : Response) (reset : Bool) :
    receive p (written p x) reset = received x :=
  receive_of_parse (Lines.readLine_append (hp.one_line x trivial) []) (by simp) (by simp)
    (hp.reads_line x)

/-- **Of a reply, as much as has come is the response or nothing.** -/
theorem receive_prefix (hp : p.responses.Closed) {x : Response} {seen : List Char}
    (hseen : seen <+: written p x) (reset : Bool) :
    receive p seen reset = received x ∨ Lost (receive p seen reset) := by
  rcases List.prefix_concat_iff.mp hseen with rfl | hshort
  · exact Or.inl (receive_written hp x reset)
  have hnot : '\n' ∉ seen := fun hn => (hp.one_line x trivial).not_mem (hshort.mem hn)
  have hread := Lines.readLine_of_not_mem hnot
  cases reset with
  | true =>
    refine Or.inr (Or.inl ?_)
    simp only [receive, hread]
    rw [if_pos (by simpa using hnot)]
  | false =>
    by_cases hempty : seen = []
    · subst hempty
      exact Or.inr (Or.inr (Or.inl rfl))
    by_cases heq : seen = p.responses.print x
    · -- only the line end is missing
      subst heq
      exact Or.inl (receive_of_parse hread hempty (by simp) (hp.reads x trivial))
    · refine Or.inr (Or.inr (Or.inr ?_))
      simp only [receive, hread, hp.refuses x seen hshort heq]
      rw [if_neg (by simp), if_neg (by simpa using hempty)]

/-- What an arm answers is named after its command, or an error. -/
theorem dispatch_named (h : Handlers ο σ) (r : Request) (o : ο) (s : σ) :
    Named r (dispatch h r o s).1 ∨ ∃ message, (dispatch h r o s).1 = .error message := by
  have hrespond : ∀ {α : Type} {make : α → Response} (x : Except String α × σ),
      (∀ a, Named r (make a)) →
        Named r (respond make x).1 ∨ ∃ message, (respond make x).1 = .error message := by
    rintro α make ⟨a | a, s⟩ hmake
    · exact Or.inr ⟨a, rfl⟩
    · exact Or.inl (hmake a)
  cases r with
  | gcRun =>
    cases hgc : h.gc with
    | none => exact Or.inr ⟨_, by simp only [dispatch, hgc, noGc]; rfl⟩
    | some gc =>
      have hmake : ∀ x : UInt64 × Int64 × Bool, Named .gcRun (.gc x.1 x.2.1 x.2.2) :=
        fun _ => trivial
      simpa only [dispatch, hgc] using hrespond (gc.run o s) hmake
  | fsck verifySizes repair =>
    cases hgc : h.gc with
    | none => exact Or.inr ⟨_, by simp only [dispatch, hgc, noGc]; rfl⟩
    | some gc =>
      have hmake : ∀ x, Named (.fsck verifySizes repair) (.fsck x) := fun _ => trivial
      simpa only [dispatch, hgc] using hrespond (gc.fsck verifySizes repair o s) hmake
  | _ => exact hrespond _ fun _ => trivial

/-- What a request comes to that is the first on a connection. -/
def dispatched (p : Pusher ο σ) (turns : ℕ → Turn ο) (r : Request) (s : σ) : Response × σ :=
  dispatch p.toHandlers r (turns 0).outside (p.meanwhile (turns 0).outside s)

/-- A connection with one line on it. -/
theorem handle_line (turns : ℕ → Turn ο) {input line : List Char} (hcut : Lines.cut input = [line]) :
    (handle p turns input s).2 =
        (answer p line (turns 0).outside (p.meanwhile (turns 0).outside s)).2 ∧
      (handle p turns input s).1 <+:
        written p (answer p line (turns 0).outside (p.meanwhile (turns 0).outside s)).1 ∧
      ((turns 0).breaks = none → (handle p turns input s).1 =
        written p (answer p line (turns 0).outside (p.meanwhile (turns 0).outside s)).1) := by
  simp only [handle, hcut, serveLines]
  cases (turns 0).breaks with
  | none => exact ⟨rfl, by rw [List.append_nil], fun _ => List.append_nil _⟩
  | some k => exact ⟨rfl, List.take_prefix k _, fun h => absurd h (by simp)⟩

/-- A request cut off is done or not begun. -/
theorem handle_cut (hp : p.requests.Closed) (r : Request) (n : ℕ) :
    (handle p turns ((sent p r).take n) s).2 = s ∨
      (handle p turns ((sent p r).take n) s).2 = p.meanwhile (turns 0).outside s ∨
      (handle p turns ((sent p r).take n) s).2 = (dispatched p turns r s).2 := by
  have hline := hp.one_line r trivial
  generalize hinput : (sent p r).take n = input
  have hprefix : input <+: sent p r := hinput ▸ List.take_prefix n _
  -- all of the request, with or without its line end
  have hwhole : Lines.cut input = [p.requests.print r] →
      (handle p turns input s).2 = (dispatched p turns r s).2 := by
    intro hcut
    rw [(handle_line turns hcut).1]
    simp only [answer, hp.reads r trivial, dispatched]
  rcases List.prefix_concat_iff.mp hprefix with rfl | hshort
  · exact Or.inr (Or.inr (hwhole (Lines.cut_append hline [])))
  by_cases hempty : input = []
  · subst hempty
    exact Or.inl rfl
  have hcut := Lines.cut_line (hline.of_prefix hshort) hempty
  by_cases heq : input = p.requests.print r
  · exact Or.inr (Or.inr (hwhole (heq ▸ hcut)))
  · refine Or.inr (Or.inl ?_)
    rw [(handle_line turns hcut).1]
    simp only [answer, hp.refuses r input hshort heq]

/-- **A command reaches the Pusher and its answer the client, or the client learns that no answer
came.** Whatever becomes of the connection and whatever others do meanwhile, `request` returns the
command's own response, or its message as an error, and the Pusher is left as the command leaves it;
or it fails, and the command was done or not begun. A connection that carries the request and the
whole reply ends in the first of the two. -/
theorem request_dispatch (hrequests : p.requests.Closed) (hresponses : p.responses.Closed)
    (turns : ℕ → Turn ο) (link : Link) (r : Request) (s : σ) :
    (Named r (dispatched p turns r s).1 ∨ ∃ message, (dispatched p turns r s).1 = .error message) ∧
      (request p turns link r s =
          (received (dispatched p turns r s).1, (dispatched p turns r s).2) ∨
        Lost (request p turns link r s).1 ∧
          ((request p turns link r s).2 = s ∨
            (request p turns link r s).2 = p.meanwhile (turns 0).outside s ∨
            (request p turns link r s).2 = (dispatched p turns r s).2)) ∧
      ∀ n reset, link = .served n reset → (turns 0).breaks = none →
        (written p (dispatched p turns r s).1).length ≤ n →
          request p turns link r s =
            (received (dispatched p turns r s).1, (dispatched p turns r s).2) := by
  have hcut : Lines.cut (sent p r) = [p.requests.print r] :=
    Lines.cut_append (hrequests.one_line r trivial) []
  have hanswer : answer p (p.requests.print r) (turns 0).outside
      (p.meanwhile (turns 0).outside s) = dispatched p turns r s := by
    simp only [answer, hrequests.reads r trivial, dispatched]
  obtain ⟨hstate, hout, hall⟩ := handle_line (p := p) (s := s) turns hcut
  rw [hanswer] at hstate hout hall
  refine ⟨dispatch_named p.toHandlers r _ _, ?_, ?_⟩
  · cases link with
    | refused => exact Or.inr ⟨Or.inl rfl, Or.inl rfl⟩
    | unserved => exact Or.inr ⟨Or.inr (Or.inl rfl), Or.inl rfl⟩
    | cut n => exact Or.inr ⟨Or.inl rfl, handle_cut hrequests r n⟩
    | served n reset =>
      have hseen := (List.take_prefix n (handle p turns (sent p r) s).1).trans hout
      rcases receive_prefix hresponses hseen reset with hreceive | hlost
      · exact Or.inl (Prod.ext hreceive hstate)
      · exact Or.inr ⟨hlost, Or.inr (Or.inr hstate)⟩
  · rintro n reset rfl hbreak hlength
    refine Prod.ext ?_ hstate
    simp only [request]
    rw [hall hbreak, List.take_of_length_le hlength]
    exact receive_written hresponses _ reset

end

/-! ## A connection -/

namespace Sample

deriving instance Countable for Repair
deriving instance Countable for Request
deriving instance Countable for FsckRow
deriving instance Countable for FsckSizeMismatch
deriving instance Countable for FsckReport
deriving instance Countable for Response

def requestTexts : List (Request × List Char) :=
  [(.unpin "release", "\x7b\"command\":\"unpin\",\"name\":\"release\"\x7d".toList)]

def responseTexts : List (Response × List Char) :=
  [(.unpin true, "\x7b\"unpin\":\x7b\"removed\":true\x7d\x7d".toList),
    (.unpin false, "\x7b\"unpin\":\x7b\"removed\":false\x7d\x7d".toList),
    (badRequest "expected value at line 1 column 1",
      ("\x7b\"error\":\x7b\"message\":\"bad request: expected value at line 1 column 1\"" ++
        "\x7d\x7d").toList)]

theorem requests_texts : Format.Texts requestTexts := by decide +kernel

theorem responses_texts : Format.Texts responseTexts := by decide +kernel

/-- A Pusher whose state is its pins: whatever does not take one off finds the database locked.
Meanwhile others set pins. -/
noncomputable def pusher : Pusher (List String) (List String) where
  status _ pins := (.error "database is locked", pins)
  gc := none
  resign _ pins := (.error "database is locked", pins)
  delete _ _ _ pins := (.error "database is locked", pins)
  pin _ _ _ _ pins := (.error "database is locked", pins)
  unpin name _ pins := (.ok (pins.contains name), pins.erase name)
  prune _ _ _ pins := (.error "database is locked", pins)
  backup _ _ pins := (.error "database is locked", pins)
  deletePushedBy _ _ _ _ pins := (.error "database is locked", pins)
  requests := .known requestTexts
  responses := .known responseTexts
  reason _ := "expected value at line 1 column 1"
  meanwhile others pins := pins ++ others

/-- Somebody pins `nightly` before the second line; the third reply breaks off. -/
def turns (n : ℕ) : Turn (List String) :=
  ⟨if n = 1 then ["nightly"] else [], if n = 2 then some 9 else none⟩

def input : List Char :=
  ("\x7b\"command\":\"unpin\",\"name\":\"release\"\x7d\nhello\r\n" ++
    "\x7b\"command\":\"unpin\",\"name\":\"release\"\x7d\nhello").toList

end Sample

theorem session_replies_broken_off :
    ∃ served rest rs whole, Lines.cut Sample.input = served ++ rest ∧
      Replies Sample.pusher Sample.turns 0 served ["release"] rs
        (handle Sample.pusher Sample.turns Sample.input ["release"]).2 ∧
      rs.length = served.length ∧
      (Lines.complete (handle Sample.pusher Sample.turns Sample.input ["release"]).1).map
        Sample.pusher.responses.parse = whole.map some ∧
      whole <+: rs ∧ rs.length ≤ whole.length + 1 ∧
      ((∀ i, (Sample.turns i).breaks = none) → rest = [] ∧ whole = rs) :=
  session_replies (p := Sample.pusher) (Format.closed_known Sample.responses_texts).toLawful
    Sample.turns Sample.input ["release"]

theorem request_dispatch_unpin :
    request Sample.pusher Sample.turns (.served 27 true) (.unpin "release") ["release", "stable"] =
      (.ok (.unpin true), ["stable"]) :=
  (request_dispatch (p := Sample.pusher) (Format.closed_known Sample.requests_texts)
    (Format.closed_known Sample.responses_texts) Sample.turns (.served 27 true) (.unpin "release")
    ["release", "stable"]).2.2 27 true rfl rfl (by decide +kernel)

end Garret.Admin
