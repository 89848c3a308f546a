import Garret.Client.Config

/-!
# A fresh login against doctor

`garret login` writes what the server advertises (`render`), every command reads it back (`load`),
and `doctor` compares the two (`drift`).

* `written_eq`: the rendered config is a document of TOML lines, so its strings are read back.
* `load_written`: what is loaded is what was advertised, the puller URL without its slashes at the
  end.
* **`fresh_login_iff`**: there is no drift exactly when the advertised puller URL ends in no slash.
* **`slash_drifts`**: an accepted puller URL that ends in one is reported for ever.
-/

namespace Garret.Config

open Garret.Lib Garret.Lib.Toml

/-! ## The rendered lines -/

/-- The line of the puller URL. -/
def pullerLine : Option String → Line
  | some puller => .str "puller_endpoint" puller
  | none => .comment
      " puller_endpoint — the server advertised none; `use`/`list`/`tree` need it"

/-- The line of the keys. -/
def keysLine (keys : List String) : Line :=
  if keys.isEmpty then
    .comment " public_keys — the server advertised none; `garret use` needs them"
  else .strs "public_keys" keys

/-- The lines `render` writes. -/
def document (t : Strings) (endpoint : String) (discovery : Discovery) (oidc : Discovery.Oidc)
    (clientId : String) : List Line :=
  [.comment " Written by `garret login`. Re-run with --force to regenerate.",
    .str "endpoint" endpoint, pullerLine discovery.pullerEndpoint, keysLine discovery.publicKeys,
    .blank, .table "oidc", .str "issuer" oidc.issuer, .str "client_id" clientId,
    .str "audience" oidc.audience, .blank,
    .comment " Optional: jobs = 8, zstd_level = 3, max_retries = 5,",
    .comment (" upstream_keys = [" ++ t.quote "cache.nixos.org-1" ++
      "] (paths these keys sign are not pushed)")]

/-- A line as a string. -/
def lineText (t : Strings) (l : Line) : String := String.ofList (l.text t)

theorem text_cons (t : Strings) (l : Line) (doc : List Line) :
    Toml.text t (l :: doc) = lineText t l ++ Toml.text t doc := by
  simp [Toml.text, lineText]

theorem lineText_comment (t : Strings) (s : String) :
    lineText t (.comment s) = "#" ++ s ++ "\n" := by
  apply String.toList_injective
  simp [lineText, Line.text]

theorem lineText_table (t : Strings) (name : String) :
    lineText t (.table name) = "[" ++ name ++ "]\n" := by
  apply String.toList_injective
  simp [lineText, Line.text]

theorem lineText_str (t : Strings) (key s : String) :
    lineText t (.str key s) = key ++ " = " ++ t.quote s ++ "\n" := by
  apply String.toList_injective
  simp [lineText, Line.text]

theorem lineText_strs (t : Strings) (key : String) (l : List String) :
    lineText t (.strs key l) =
      key ++ " = [" ++ String.intercalate ", " (l.map t.quote) ++ "]\n" := by
  apply String.toList_injective
  simp [lineText, Line.text, Function.comp_def]

theorem lineText_pullerLine (t : Strings) (puller : Option String) :
    lineText t (pullerLine puller) = pullerText t puller := by
  cases puller with
  | none =>
    have hnone : pullerText t none =
        "# puller_endpoint — the server advertised none; `use`/`list`/`tree` need it\n" := rfl
    have hline : lineText t (pullerLine none) = "#" ++
        " puller_endpoint — the server advertised none; `use`/`list`/`tree` need it" ++ "\n" :=
      lineText_comment t _
    rw [hline, hnone]
    decide +kernel
  | some puller => exact lineText_str t "puller_endpoint" puller

theorem lineText_keysLine (t : Strings) (keys : List String) :
    lineText t (keysLine keys) = keysText t keys := by
  unfold keysLine keysText
  by_cases hkeys : keys.isEmpty = true
  · rw [if_pos hkeys, if_pos hkeys, lineText_comment]
    decide +kernel
  · rw [if_neg hkeys, if_neg hkeys]
    exact lineText_strs t "public_keys" keys

/-- The rendered config is a document of these lines. -/
theorem written_eq (t : Strings) (endpoint : String) (discovery : Discovery)
    (oidc : Discovery.Oidc) (clientId : String) :
    written t endpoint discovery oidc clientId =
      Toml.text t (document t endpoint discovery oidc clientId) := by
  have hfirst : "# Written by `garret login`. Re-run with --force to regenerate.\n" =
      "#" ++ " Written by `garret login`. Re-run with --force to regenerate." ++ "\n" := by
    decide +kernel
  have hendpoint : "endpoint = " = "endpoint" ++ " = " := by decide +kernel
  have hissuer : "\n[oidc]\nissuer = " = "\n" ++ "[" ++ "oidc" ++ "]\n" ++ "issuer" ++ " = " := by
    decide +kernel
  have hclient : "\nclient_id = " = "\n" ++ "client_id" ++ " = " := by decide +kernel
  have haudience : "\naudience = " = "\n" ++ "audience" ++ " = " := by decide +kernel
  have hcomment : "\n# Optional: jobs = " = "\n" ++ "#" ++ " Optional: jobs = " := by
    decide +kernel
  have hdefaults : " Optional: jobs = 8, zstd_level = 3, max_retries = 5," =
      " Optional: jobs = " ++ toString defaultJobs ++ ", zstd_level = " ++
        toString defaultZstdLevel ++ ", max_retries = " ++ toString defaultMaxRetries ++ "," := by
    decide +kernel
  have hupstream : ",\n# upstream_keys = [" = "," ++ "\n" ++ "#" ++ " upstream_keys = [" := by
    decide +kernel
  have hlast : "] (paths these keys sign are not pushed)\n" =
      "] (paths these keys sign are not pushed)" ++ "\n" := by decide +kernel
  have hblank : lineText t .blank = "\n" := rfl
  have hnil : Toml.text t [] = "" := rfl
  unfold written document
  simp only [text_cons, lineText_pullerLine, lineText_keysLine, lineText_comment, lineText_str,
    lineText_table, hblank, hnil, defaultUpstreamKeys, List.map_cons, List.map_nil,
    String.intercalate_singleton, String.append_empty]
  rw [hfirst, hendpoint, hissuer, hclient, haudience, hcomment, hdefaults, hupstream, hlast]
  simp only [String.append_assoc]

/-- The names are bare, and no comment has a line end. -/
theorem document_wf {t : Strings} (ht : t.Lawful) (endpoint : String) (discovery : Discovery)
    (oidc : Discovery.Oidc) (clientId : String) :
    ∀ l ∈ document t endpoint discovery oidc clientId, l.Wf := by
  have hpuller : (pullerLine discovery.pullerEndpoint).Wf := by
    cases discovery.pullerEndpoint with
    | none => exact not_mem_ofList (by decide)
    | some puller => exact bare_ofList (by decide) (by decide)
  have hkeys : (keysLine discovery.publicKeys).Wf := by
    unfold keysLine
    by_cases hempty : discovery.publicKeys.isEmpty = true
    · rw [if_pos hempty]
      exact not_mem_ofList (by decide)
    · rw [if_neg hempty]
      exact bare_ofList (by decide) (by decide)
  have hupstream : '\n' ∉ (" upstream_keys = [" ++ t.quote "cache.nixos.org-1" ++
      "] (paths these keys sign are not pushed)").toList := by
    have hquote := ht.one_line "cache.nixos.org-1" (not_mem_ofList (by decide))
    simp only [String.toList_append, List.mem_append, not_or]
    exact ⟨⟨not_mem_ofList (by decide), hquote⟩, not_mem_ofList (by decide)⟩
  intro l hl
  simp only [document, List.mem_cons, List.not_mem_nil, or_false] at hl
  rcases hl with rfl | rfl | rfl | rfl | rfl | rfl | rfl | rfl | rfl | rfl | rfl | rfl
  · exact not_mem_ofList (by decide)
  · exact bare_ofList (by decide) (by decide)
  · exact hpuller
  · exact hkeys
  · trivial
  · exact bare_ofList (by decide) (by decide)
  · exact bare_ofList (by decide) (by decide)
  · exact bare_ofList (by decide) (by decide)
  · exact bare_ofList (by decide) (by decide)
  · trivial
  · exact not_mem_ofList (by decide)
  · exact hupstream

/-! ## What is loaded -/

/-- The config the rendered text says. -/
def advertised (endpoint : String) (discovery : Discovery) (oidc : Discovery.Oidc)
    (clientId : String) : Config where
  endpoint := endpoint
  oidc := {
    issuer := some oidc.issuer
    clientId := some clientId
    clientSecretFile := none
    audience := oidc.audience
    resource := none }
  jobs := defaultJobs
  zstdLevel := defaultZstdLevel
  maxRetries := defaultMaxRetries
  uploadIdleSecs := defaultUploadIdleSecs
  pullerEndpoint := discovery.pullerEndpoint
  publicKeys := discovery.publicKeys
  upstreamKeys := defaultUpstreamKeys
  watch := {}

theorem ofItems_document (t : Strings) (endpoint : String) (discovery : Discovery)
    (oidc : Discovery.Oidc) (clientId : String) :
    ofItems ((document t endpoint discovery oidc clientId).filterMap Line.item?) =
      some (advertised endpoint discovery oidc clientId) := by
  obtain ⟨doidc, keys, puller⟩ := discovery
  cases puller with
  | none =>
    cases keys with
    | nil => rfl
    | cons k ks => rfl
  | some puller =>
    cases keys with
    | nil => rfl
    | cons k ks => rfl

/-- What is rendered is what is parsed. -/
theorem fromStr_written {t : Strings} (ht : t.Lawful) (endpoint : String) (discovery : Discovery)
    (oidc : Discovery.Oidc) (clientId : String) :
    fromStr t (written t endpoint discovery oidc clientId) =
      some (advertised endpoint discovery oidc clientId) := by
  unfold fromStr
  rw [written_eq, parse_text ht (document_wf ht endpoint discovery oidc clientId)]
  exact ofItems_document t endpoint discovery oidc clientId

/-- Loading what was rendered is checking what was advertised, without its trailing slashes. -/
theorem load_written {t : Strings} (ht : t.Lawful) (net : Net) (endpoint : String)
    (discovery : Discovery) (oidc : Discovery.Oidc) (clientId : String) {cfg : Config} :
    load t net (some (written t endpoint discovery oidc clientId)) none = .ok cfg ↔
      ((advertised endpoint discovery oidc clientId).normalise none).checked net = .ok () ∧
        cfg = (advertised endpoint discovery oidc clientId).normalise none := by
  have hvalid : (advertised endpoint discovery oidc clientId).validate = .ok () := rfl
  simp only [load, fromStr_written ht, hvalid]
  cases ((advertised endpoint discovery oidc clientId).normalise none).checked net with
  | error e => simp [Except.mapError, bind, Except.bind]
  | ok u =>
    simp only [Except.mapError, bind, Except.bind, pure, Except.pure, Except.ok.injEq, true_and]
    exact eq_comm

theorem trimTrailingSlashes_eq_self {url : String} :
    trimTrailingSlashes url = url ↔ url.toList.getLast? ≠ some '/' := by
  rw [← trimEndMatches_eq_self, ← String.toList_inj, trimTrailingSlashes, String.toList_ofList]

theorem compare_eq_nil {what : String} {is : Option String} {advertised : String} :
    compare what is advertised = [] ↔ is = some advertised := by
  unfold compare
  by_cases h : is = some advertised
  · simp [h]
  · simp [h]

/-- A loaded config differs from what was advertised in the slashes at most. -/
theorem drift_normalise {endpoint clientId : String} {discovery : Discovery}
    {oidc : Discovery.Oidc} (hoidc : discovery.oidc = some oidc)
    (hclient : oidc.clientId = some clientId) :
    drift ((advertised endpoint discovery oidc clientId).normalise none) discovery true = [] ↔
      ∀ puller, discovery.pullerEndpoint = some puller → puller.toList.getLast? ≠ some '/' := by
  have hrest : ∀ what is, compare what (some is) is = [] := fun what is => compare_eq_nil.mpr rfl
  unfold drift
  rw [hoidc]
  simp only [hclient, advertised, normalise, hrest, if_true, List.append_nil]
  cases discovery.pullerEndpoint with
  | none => simp
  | some puller =>
    simp only [Option.map_some, compare_eq_nil, Option.some.injEq, forall_eq',
      trimTrailingSlashes_eq_self]

/-! ## The contract -/

/-- **A fresh login shows no drift exactly when the advertised puller URL ends in no slash.** -/
theorem fresh_login_iff {t : Strings} (ht : t.Lawful) (net : Net) {what endpoint text : String}
    {d : Discovery} (hurl : checkUrl net what endpoint = .ok ())
    (hslash : endpoint.toList.getLast? ≠ some '/') (hd : d.check net = .ok ())
    (hr : render t endpoint d = .ok text) :
    (∃ cfg oidc, load t net (some text) none = .ok cfg ∧ cfg.endpoint = endpoint ∧
      cfg.publicKeys = d.publicKeys ∧ d.oidc = some oidc ∧ cfg.oidc.issuer = some oidc.issuer ∧
      cfg.oidc.clientId = oidc.clientId ∧ cfg.oidc.audience = oidc.audience ∧
      drift cfg d true = []) ↔
    ∀ puller, d.pullerEndpoint = some puller → puller.toList.getLast? ≠ some '/' := by
  obtain ⟨hpuller, hkeys, hissuer⟩ := Discovery.check_ok hd
  unfold render at hr
  split at hr
  · exact absurd hr (by simp)
  · rename_i oidc hoidc
    split at hr
    · exact absurd hr (by simp)
    · rename_i clientId hclient
      obtain rfl := Except.ok.inj hr
      constructor
      · rintro ⟨cfg, _, hload, -, -, -, -, -, -, hdrift⟩
        obtain ⟨-, rfl⟩ := (load_written ht net endpoint d oidc clientId).mp hload
        exact (drift_normalise hoidc hclient).mp hdrift
      · intro hends
        have hendpoint : trimTrailingSlashes endpoint = endpoint :=
          trimTrailingSlashes_eq_self.mpr hslash
        have hloaded :
            ((advertised endpoint d oidc clientId).normalise none).checked net = .ok () := by
          refine checked_eq_ok.mpr ⟨?_, ?_, ?_, hkeys⟩
          · rw [show ((advertised endpoint d oidc clientId).normalise none).endpoint = endpoint
              from hendpoint]
            exact checkUrl_what hurl "endpoint"
          · intro puller hp
            obtain ⟨raw, hraw, rfl⟩ := Option.map_eq_some_iff.mp hp
            rw [trimTrailingSlashes_eq_self.mpr (hends raw hraw)]
            exact hpuller raw hraw
          · intro issuer hi
            obtain rfl : oidc.issuer = issuer := Option.some.inj hi
            exact hissuer oidc hoidc
        refine ⟨_, oidc, (load_written ht net endpoint d oidc clientId).mpr ⟨hloaded, rfl⟩,
          hendpoint, rfl, hoidc, rfl, hclient.symm, rfl, ?_⟩
        exact (drift_normalise hoidc hclient).mpr hends

/-! ### A puller URL with a slash -/

namespace Slash

/-- The parser on `https` URLs of three hosts. -/
def net : Net where
  parse url :=
    (["cache.example", "push.example", "id.example"].find? fun host =>
      decide (url = "https://" ++ host) || startsWith ("https://" ++ host ++ "/") url).map fun host =>
        ⟨"https", some host⟩
  isLoopback _ := false

/-- A server that advertises this puller URL. -/
def discovery (puller : Option String) : Discovery where
  oidc := some ⟨"garret", some "garret-cli", "https://id.example"⟩
  publicKeys := ["garret-1:AAAA+bb/cc="]
  pullerEndpoint := puller

end Slash

/-- **An accepted puller URL with a trailing slash drifts.** -/
theorem slash_drifts :
    checkUrl Slash.net "the Pusher URL" "https://push.example" = .ok () ∧
    (Slash.discovery (some "https://cache.example/")).check Slash.net = .ok () ∧
    ∃ text cfg, render basic "https://push.example"
        (Slash.discovery (some "https://cache.example/")) = .ok text ∧
      load basic Slash.net (some text) none = .ok cfg ∧
      drift cfg (Slash.discovery (some "https://cache.example/")) true =
        ["puller_endpoint is https://cache.example, server advertises https://cache.example/"] := by
  refine ⟨by decide +kernel, by decide +kernel, _, _, rfl, (load_written basic_lawful Slash.net
    "https://push.example" (Slash.discovery (some "https://cache.example/"))
    ⟨"garret", some "garret-cli", "https://id.example"⟩ "garret-cli").mpr
      ⟨by decide +kernel, rfl⟩, by decide +kernel⟩

theorem fresh_login_iff_plain :
    ∃ cfg oidc, load basic Slash.net (some (written basic "https://push.example"
        (Slash.discovery (some "https://cache.example"))
        ⟨"garret", some "garret-cli", "https://id.example"⟩ "garret-cli")) none = .ok cfg ∧
      cfg.endpoint = "https://push.example" ∧ cfg.publicKeys = ["garret-1:AAAA+bb/cc="] ∧
      (Slash.discovery (some "https://cache.example")).oidc = some oidc ∧
      cfg.oidc.issuer = some oidc.issuer ∧ cfg.oidc.clientId = oidc.clientId ∧
      cfg.oidc.audience = oidc.audience ∧
      drift cfg (Slash.discovery (some "https://cache.example")) true = [] := by
  have hurl : checkUrl Slash.net "the Pusher URL" "https://push.example" = .ok () := by
    decide +kernel
  have hends : ∀ puller, (Slash.discovery (some "https://cache.example")).pullerEndpoint =
      some puller → puller.toList.getLast? ≠ some '/' := by
    intro puller hp
    obtain rfl : "https://cache.example" = puller := Option.some.inj hp
    decide +kernel
  exact (fresh_login_iff basic_lawful Slash.net hurl (by decide +kernel) (by decide +kernel)
    rfl).mpr hends

end Garret.Config
