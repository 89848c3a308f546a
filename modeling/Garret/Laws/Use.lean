import Garret.Laws.NixSyntax

/-!
# What `garret use` brings about

* `apply_effect`: the file keeps its text and may be written again without a change; Nix reads the
  puller from it exactly where the old text did not hold the URL anywhere, or set it already.
* `apply_without_effect`: a line that is commented out holds the URL, so nothing is written.
-/

namespace Garret

open Garret.Lib Garret.Lib.Nix

/-- Some setting of a nix.conf, outside comments, has `value` among its values. -/
def IsSet (text : List Char) (value : String) : Prop :=
  ∃ l ∈ lines text, ∃ name values, parseLine l = some (some (name, values)) ∧ value ∈ values

/-- What is appended starts on a line of its own, after the old text. -/
theorem appended_lines (existing : Option String) (puller : String) (keys : List String) :
    ((existing.getD "").toList <+: (Nixconf.appended existing puller keys).toList) ∧
      (∃ before, (Nixconf.appended existing puller keys).toList =
        before ++ (Nixconf.lines puller keys).toList) ∧
      ∀ l ∈ lines (Nixconf.lines puller keys).toList,
        l ∈ lines (Nixconf.appended existing puller keys).toList := by
  unfold Nixconf.appended
  generalize existing.getD "" = out
  generalize Nixconf.lines puller keys = block
  have hbreak : "\n".toList = ['\n'] := rfl
  simp only
  split
  · rw [String.toList_append, String.toList_append, hbreak, List.append_assoc,
      List.singleton_append, lines_append]
    refine ⟨List.prefix_append _ _, ⟨out.toList ++ ['\n'], by simp⟩, fun l hl => ?_⟩
    exact List.mem_append_right _ hl
  · rename_i hend
    rw [String.toList_append]
    refine ⟨List.prefix_append _ _, ⟨out.toList, rfl⟩, fun l hl => ?_⟩
    by_cases hout : out = ""
    · subst hout
      exact hl
    · -- the old text ends in a line break
      have hlast : out.toList.getLast? = some '\n' := by
        by_contra hne
        exact hend ⟨hout, hne⟩
      obtain ⟨a, ha⟩ := List.getLast?_eq_some_iff.mp hlast
      rw [ha, List.append_assoc, List.singleton_append, lines_append]
      exact List.mem_append_right _ hl

/-- The block that is appended sets the puller. -/
theorem isSet_lines {puller : String} (hne : puller ≠ "")
    (hp : ∀ c ∈ puller.toList, refusedInUrl c = false) (hhash : '#' ∉ puller.toList)
    (keys : List String) :
    ∃ l ∈ lines (Nixconf.lines puller keys).toList,
      parseLine l = some (some ("extra-substituters", [puller])) := by
  have hword : IsWord puller.toList :=
    ⟨fun he => hne (String.toList_injective he), fun c hc => url_blank (hp c hc)⟩
  have hnobreak : '\n' ∉ "extra-substituters".toList ++ ' ' :: '=' :: ' ' :: puller.toList := by
    have hpuller : '\n' ∉ puller.toList := fun hin => ne_of_url (by decide) (hp _ hin) rfl
    simp [hpuller]
  refine ⟨"extra-substituters".toList ++ ' ' :: '=' :: ' ' :: puller.toList, ?_, ?_⟩
  · rw [toList_lines, lines_cons hnobreak]
    exact List.mem_cons_self
  · rw [parseLine_setting (by decide) (by decide), uncomment_eq_self hhash, words_of_isWord hword]
    simp

/-- The appended text holds the URL. -/
theorem puller_occurs (existing : Option String) (puller : String) (keys : List String) :
    puller.toList <:+: (Nixconf.appended existing puller keys).toList := by
  obtain ⟨-, ⟨before, hbefore⟩, -⟩ := appended_lines existing puller keys
  have hsplit : ∀ rest, before ++
      (("extra-substituters".toList ++ ' ' :: '=' :: ' ' :: puller.toList) ++ rest) =
      (before ++ "extra-substituters".toList ++ [' ', '=', ' ']) ++ (puller.toList ++ rest) := by
    intro rest
    simp only [List.append_assoc, List.cons_append, List.nil_append]
  rw [hbefore, toList_lines, hsplit]
  exact List.infix_append' _ _ _

/-- **What `garret use` brings about.** When `apply` returns, the file begins with its old text, and
a second call leaves it as it is; the puller is among the values of a setting outside comments
exactly when the old text did not hold the URL, in which case it is appended, or set it already. -/
theorem apply_effect (net : Net) (hempty : net.parse "" = none) {what puller : String}
    (hp : checkUrl net what puller = .ok ()) (hhash : '#' ∉ puller.toList) (keys : List String)
    {env : Nixconf.Env} {file file' : Option String} {outcome : Nixconf.Outcome}
    (h : Nixconf.apply env puller keys file = .ok (outcome, file')) :
    ((file.getD "").toList <+: (file'.getD "").toList) ∧
      (∀ env' outcome' file'', Nixconf.apply env' puller keys file' = .ok (outcome', file'') →
        file'' = file') ∧
      (IsSet (file'.getD "").toList puller ↔
        ¬ puller.toList <:+: (file.getD "").toList ∨ IsSet (file.getD "").toList puller) := by
  obtain ⟨hchars, url, hparse, -⟩ := checkUrl_eq_ok.mp hp
  have hne : puller ≠ "" := by
    rintro rfl
    rw [hempty] at hparse
    exact absurd hparse (by simp)
  -- a file that holds the URL is left alone
  have hagain : ∀ text, puller.toList <:+: text.toList → ∀ env' outcome' file'',
      Nixconf.apply env' puller keys (some text) = .ok (outcome', file'') → file'' = some text := by
    intro text hin env' outcome' file'' h'
    rcases Nixconf.apply_eq_ok h' with ⟨_, _, -, -, heq, -⟩ | ⟨_, -, -, hnot⟩
    · exact heq
    · exact absurd hin (hnot text rfl)
  rcases Nixconf.apply_eq_ok h with ⟨_, text, -, rfl, rfl, hin⟩ | ⟨_, -, rfl, hnot⟩
  · refine ⟨List.prefix_rfl, hagain text hin, ?_⟩
    rw [Option.getD_some]
    constructor
    · exact fun hset => Or.inr hset
    · rintro (hno | hset)
      · exact absurd hin hno
      · exact hset
  · obtain ⟨hstays, -, hlines⟩ := appended_lines file puller keys
    obtain ⟨l, hl, hline⟩ := isSet_lines hne hchars hhash keys
    refine ⟨hstays, hagain _ (puller_occurs file puller keys), iff_of_true ?_ (Or.inl ?_)⟩
    · exact ⟨l, hlines l hl, _, _, hline, List.mem_singleton_self puller⟩
    · cases file with
      | none =>
        intro hin
        exact hne (String.toList_injective (List.eq_nil_of_infix_nil hin))
      | some text => exact hnot text rfl

namespace Commented

/-- A nix.conf in which the cache is commented out. -/
def text : String := "# extra-substituters = https://cache.example\n"

/-- A home directory, and nothing that fails. -/
def env : Nixconf.Env := ⟨some "/home/u/.config", false, false, false⟩

end Commented

/-- **A line that is commented out holds the URL**: nothing is written, and Nix reads no puller. -/
theorem apply_without_effect : ¬ ∀ (net : Net) (what puller : String) (keys : List String)
    (env : Nixconf.Env) (file file' : Option String) (outcome : Nixconf.Outcome),
    net.parse "" = none → checkUrl net what puller = .ok () → (∀ k ∈ keys, checkKey k = .ok ()) →
    '#' ∉ puller.toList → Nixconf.apply env puller keys file = .ok (outcome, file') →
    IsSet (file'.getD "").toList puller := by
  intro h
  have hset := h Fragment.net "puller_endpoint" "https://cache.example" ["garret-1:AAAA"]
    Commented.env (some Commented.text) (some Commented.text)
    (.alreadyPresent "/home/u/.config/nix/nix.conf") (by decide) (by decide +kernel)
    (by decide +kernel) (by decide) (by decide +kernel)
  obtain ⟨l, hl, name, values, hline, -⟩ := hset
  have hlines : lines Commented.text.toList =
      ["# extra-substituters = https://cache.example".toList, []] := by decide +kernel
  rw [Option.getD_some, hlines] at hl
  rcases List.mem_cons.mp hl with rfl | hl
  · have hnone : parseLine "# extra-substituters = https://cache.example".toList = some none := by
      decide +kernel
    rw [hnone] at hline
    exact absurd hline (by simp)
  · rw [List.mem_singleton.mp hl] at hline
    have hnone : parseLine [] = some none := rfl
    rw [hnone] at hline
    exact absurd hline (by simp)

/-- A nix.conf of another setting, its last line not ended. -/
theorem apply_effect_appended : IsSet ("max-jobs = 4\n" ++
    "extra-substituters = https://cache.example\n" ++
    "extra-trusted-public-keys = garret-1:AAAA\n").toList "https://cache.example" := by
  have hurl : checkUrl Fragment.net "puller_endpoint" "https://cache.example" = .ok () := by
    decide +kernel
  have happly : Nixconf.apply Commented.env "https://cache.example" ["garret-1:AAAA"]
      (some "max-jobs = 4") = .ok (.added "/home/u/.config/nix/nix.conf",
        some ("max-jobs = 4\n" ++ "extra-substituters = https://cache.example\n" ++
          "extra-trusted-public-keys = garret-1:AAAA\n")) := by decide +kernel
  obtain ⟨-, -, heffect⟩ := apply_effect Fragment.net (by decide) hurl (by decide)
    ["garret-1:AAAA"] happly
  exact heffect.mpr (Or.inl (by decide +kernel))

end Garret
