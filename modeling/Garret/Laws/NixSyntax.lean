import Garret.Client.Nixconf
import Garret.Lib.Nix

/-!
# What the written Nix configuration says

`garret use` writes the advertised puller URL and keys into a nix.conf or prints them as a NixOS
setting. Both are read back with the grammar they are written for (`Lib.Nix`).

* `snippet_reads_back`: inside a Nix string every accepted value is itself.
* **`written_values_iff`**: in nix.conf the keys are always read back; the URL is read back exactly
  when it holds no `#`.
* **`fragment_is_cut_off`**: `check_url` lets `#` pass, and nix.conf takes it for a comment, so what
  Nix is told to fetch from is another URL than the one that was checked.
-/

namespace Garret

open Garret.Lib Garret.Lib.Nix

/-! ## The accepted characters -/

theorem ne_of_key {c x : Char} (hx : isKeyChar x = false) (hc : isKeyChar c = true) : c ≠ x := by
  rintro rfl
  rw [hx] at hc
  exact absurd hc (by simp)

theorem ne_of_url {c x : Char} (hx : refusedInUrl x = true) (hc : refusedInUrl c = false) :
    c ≠ x := by
  rintro rfl
  rw [hx] at hc
  exact absurd hc (by simp)

/-- A character other than the four blanks is none. -/
theorem not_isWhitespace {c : Char} (h₁ : c ≠ ' ') (h₂ : c ≠ '\t') (h₃ : c ≠ '\r') (h₄ : c ≠ '\n') :
    c.isWhitespace = false := by
  simp [Char.isWhitespace, h₁, h₂, h₃, h₄]

theorem isPlain_of_ne {c : Char} (h₁ : c ≠ '"') (h₂ : c ≠ '\\') (h₃ : c ≠ '\x7b') :
    isPlain c = true := by
  simp [isPlain, h₁, h₂, h₃]

theorem key_isWord {key : String} (h : validKey key = true) : IsWord key.toList := by
  obtain ⟨hne, hchars⟩ := validKey_chars h
  refine ⟨fun he => hne (String.toList_injective he), fun c hc => ?_⟩
  have hkey := hchars c hc
  exact not_isWhitespace (ne_of_key (by decide) hkey) (ne_of_key (by decide) hkey)
    (ne_of_key (by decide) hkey) (ne_of_key (by decide) hkey)

theorem key_plain {key : String} (h : validKey key = true) :
    ∀ c ∈ key.toList, isPlain c = true := by
  intro c hc
  have hkey := (validKey_chars h).2 c hc
  exact isPlain_of_ne (ne_of_key (by decide) hkey) (ne_of_key (by decide) hkey)
    (ne_of_key (by decide) hkey)

theorem key_not_mem {key : String} (h : validKey key = true) {x : Char}
    (hx : isKeyChar x = false) : x ∉ key.toList :=
  fun hin => ne_of_key hx ((validKey_chars h).2 x hin) rfl

theorem url_blank {c : Char} (h : refusedInUrl c = false) : c.isWhitespace = false :=
  not_isWhitespace (ne_of_url (by decide) h) (ne_of_url (by decide) h) (ne_of_url (by decide) h)
    (ne_of_url (by decide) h)

theorem url_plain {c : Char} (h : refusedInUrl c = false) : isPlain c = true :=
  isPlain_of_ne (ne_of_url (by decide) h) (ne_of_url (by decide) h) (ne_of_url (by decide) h)

/-! ## The lines of nix.conf -/

/-- A setting's line reads as its name and the words of its values. -/
theorem parseLine_setting {name values : List Char} (hname : IsWord name) (hcomment : '#' ∉ name) :
    parseLine (name ++ ' ' :: '=' :: ' ' :: values) =
      some (some (String.ofList name, (words (uncomment values)).map String.ofList)) := by
  have heq : IsWord ['='] := by decide
  have hcut : uncomment (name ++ ' ' :: '=' :: ' ' :: values) =
      name ++ ' ' :: (['='] ++ ' ' :: uncomment values) := by
    rw [uncomment_append hcomment]
    rfl
  unfold parseLine
  rw [hcut, words_cons hname (by decide), words_cons heq (by decide)]
  rfl

/-- The keys, put together with blanks, hold nothing that no key does. -/
theorem not_mem_keys {x : Char} (hx : isKeyChar x = false) (hblank : x ≠ ' ') {keys : List String}
    (h : ∀ k ∈ keys, validKey k = true) : x ∉ [' '].intercalate (keys.map String.toList) := by
  intro hin
  rcases mem_intercalate hin with rfl | ⟨w, hw, hxw⟩
  · exact hblank rfl
  · obtain ⟨k, hk, rfl⟩ := List.mem_map.mp hw
    exact key_not_mem (h k hk) hx hxw

/-- The two settings, as `lines` writes them. -/
theorem toList_lines (puller : String) (keys : List String) :
    (Nixconf.lines puller keys).toList =
      ("extra-substituters".toList ++ ' ' :: '=' :: ' ' :: puller.toList) ++ '\n' ::
        (("extra-trusted-public-keys".toList ++ ' ' :: '=' :: ' ' ::
          [' '].intercalate (keys.map String.toList)) ++ '\n' :: []) := by
  have h₁ : "extra-substituters = ".toList = "extra-substituters".toList ++ [' ', '=', ' '] := rfl
  have h₂ : "\nextra-trusted-public-keys = ".toList =
      '\n' :: ("extra-trusted-public-keys".toList ++ [' ', '=', ' ']) := rfl
  have h₃ : " ".toList = [' '] := rfl
  have h₄ : "\n".toList = ['\n'] := rfl
  unfold Nixconf.lines
  simp only [String.toList_append, String.toList_intercalate, h₁, h₂, h₃, h₄, List.append_assoc,
    List.cons_append, List.nil_append]

/-- What nix.conf reads: the words of the URL before its first `#`, and the keys. -/
theorem parseConf_lines {puller : String} {keys : List String}
    (hp : ∀ c ∈ puller.toList, refusedInUrl c = false) (hk : ∀ k ∈ keys, validKey k = true) :
    parseConf (Nixconf.lines puller keys) =
      some [("extra-substituters", (words (uncomment puller.toList)).map String.ofList),
        ("extra-trusted-public-keys", keys)] := by
  have hwords : ∀ w ∈ keys.map String.toList, IsWord w := by
    intro w hw
    obtain ⟨k, hin, rfl⟩ := List.mem_map.mp hw
    exact key_isWord (hk k hin)
  have hkeys : (words (uncomment ([' '].intercalate (keys.map String.toList)))).map String.ofList =
      keys := by
    rw [uncomment_eq_self (not_mem_keys (by decide) (by decide) hk),
      words_intercalate hwords (by decide), List.map_map]
    simp
  have hbreak : ∀ {name values : List Char}, '\n' ∉ name → '\n' ∉ values →
      '\n' ∉ name ++ ' ' :: '=' :: ' ' :: values := by
    intro name values hn hv
    simp [hn, hv]
  have hpuller : '\n' ∉ puller.toList := fun hin => ne_of_url (by decide) (hp _ hin) rfl
  have hfirst : parseLine ("extra-substituters".toList ++ ' ' :: '=' :: ' ' :: puller.toList) =
      some (some ("extra-substituters", (words (uncomment puller.toList)).map String.ofList)) :=
    parseLine_setting (by decide) (by decide)
  have hsecond : parseLine ("extra-trusted-public-keys".toList ++ ' ' :: '=' :: ' ' ::
      [' '].intercalate (keys.map String.toList)) =
      some (some ("extra-trusted-public-keys", keys)) := by
    rw [parseLine_setting (by decide) (by decide), hkeys]
    rfl
  unfold parseConf
  rw [toList_lines, lines_cons (hbreak (by decide) hpuller),
    lines_cons (hbreak (by decide) (not_mem_keys (by decide) (by decide) hk))]
  have hrest : lines [] = [[]] := rfl
  have hempty : parseLine [] = some none := rfl
  rw [hrest]
  simp only [List.mapM_cons, List.mapM_nil, hfirst, hsecond, hempty]
  rfl

/-! ## The NixOS setting -/

/-- A quoted value is one string token. -/
theorem lex_quoted {s : String} (h : ∀ c ∈ s.toList, isPlain c = true) (acc : List Token)
    (rest : List Char) :
    lex (.code []) acc (("\"" ++ s ++ "\"").toList ++ rest) =
      lex (.code []) (.str s :: acc) rest := by
  have htext : ("\"" ++ s ++ "\"").toList ++ rest = '"' :: (s.toList ++ '"' :: rest) := by simp
  have hopen : lex (.code []) acc ('"' :: (s.toList ++ '"' :: rest)) =
      lex (.str []) acc (s.toList ++ '"' :: rest) := rfl
  rw [htext, hopen, (lex_string h acc rest []).1]
  simp

/-- Quoted keys, put together with blanks, are the strings of a list. -/
theorem lex_keys (rest : List Char) : ∀ {keys : List String},
    (∀ k ∈ keys, validKey k = true) → ∀ acc : List Token,
    lex (.code []) acc ((String.intercalate " " (keys.map fun k => "\"" ++ k ++ "\"")).toList ++
      ' ' :: rest) = lex (.code []) ((keys.map Token.str).reverse ++ acc) (' ' :: rest)
  | [], _, acc => rfl
  | [k], h, acc => by
    rw [List.map_singleton, String.intercalate_singleton,
      lex_quoted (key_plain (h k List.mem_cons_self))]
    rfl
  | k :: l :: ks, h, acc => by
    have hrec := @lex_keys rest (l :: ks) (fun x hx => h x (List.mem_cons_of_mem _ hx))
      (.str k :: acc)
    have hblank : ∀ ts cs, lex (.code []) ts (" ".toList ++ cs) = lex (.code []) ts cs :=
      fun ts cs => rfl
    rw [List.map_cons, List.map_cons, String.intercalate_cons_cons, String.toList_append,
      String.toList_append, List.append_assoc, List.append_assoc,
      lex_quoted (key_plain (h k List.mem_cons_self)), hblank]
    refine hrec.trans ?_
    simp

/-- **The NixOS setting reads back.** -/
theorem snippet_reads_back {puller : String} {keys : List String}
    (hp : ∀ c ∈ puller.toList, refusedInUrl c = false) (hk : ∀ k ∈ keys, validKey k = true) :
    parseBinding (Nixconf.nixosSnippet puller keys) = some (["nix", "settings"],
      [("substituters", [puller]), ("trusted-public-keys", keys)]) := by
  have hplain : ∀ c ∈ puller.toList, isPlain c = true := fun c hc => url_plain (hp c hc)
  -- the text before the URL, between it and the keys, and after the keys
  have hhead : ∀ cs, lex (.code []) [] ("nix.settings = \x7b\n  substituters = [ \"".toList ++ cs) =
      lex (.str []) [.lbracket, .eq, .ident "substituters", .lbrace, .eq, .ident "settings", .dot,
        .ident "nix"] cs := by
    intro cs
    simp only [String.reduceToList]
    rfl
  have hmiddle : ∀ acc cs, lex (.code []) acc
      (" ];\n  trusted-public-keys = [ ".toList ++ cs) =
      lex (.code []) (.lbracket :: .eq :: .ident "trusted-public-keys" :: .semi :: .rbracket :: acc)
        cs := by
    intro acc cs
    simp only [String.reduceToList]
    rfl
  have htail : ∀ acc, lex (.code []) acc " ];\n\x7d;\n".toList =
      some (.semi :: .rbrace :: .semi :: .rbracket :: acc).reverse := by
    intro acc
    simp only [String.reduceToList]
    rfl
  have hsplit : "\" ];\n  trusted-public-keys = [ ".toList =
      '"' :: " ];\n  trusted-public-keys = [ ".toList := rfl
  let path : List Token := [.ident "nix", .dot, .ident "settings", .eq, .lbrace]
  let last : List Token := keys.map .str ++ [.rbracket, .semi, .rbrace, .semi]
  let attrs : List Token := .ident "substituters" :: .eq :: .lbracket :: .str puller ::
    .rbracket :: .semi :: .ident "trusted-public-keys" :: .eq :: .lbracket :: last
  have hlex : lex (.code []) [] (Nixconf.nixosSnippet puller keys).toList =
      some (path ++ attrs) := by
    unfold Nixconf.nixosSnippet
    simp only [String.toList_append, List.append_assoc]
    rw [hhead, hsplit, List.cons_append, (lex_string hplain _ _ []).1, hmiddle]
    have hend : " ];\n\x7d;\n".toList = ' ' :: "];\n\x7d;\n".toList := rfl
    rw [hend, lex_keys _ hk, ← hend, htail]
    simp [path, attrs, last]
  have hattrs : parseAttrs none attrs =
      some ([("substituters", [puller]), ("trusted-public-keys", keys)], [.semi]) := by
    have hend : parseAttrs none [.rbrace, .semi] = some ([], [.semi]) := by rw [parseAttrs]
    have hkeys := parseAttrs_binding "trusted-public-keys" keys [.rbrace, .semi]
    rw [hend] at hkeys
    refine (parseAttrs_binding "substituters" [puller] _).trans ?_
    rw [hkeys]
    rfl
  have hpath : parsePath (path ++ attrs) = some (["nix", "settings"], attrs) := rfl
  unfold parseBinding
  rw [hlex]
  simp only [Option.bind_eq_bind, Option.bind_some, hpath, hattrs, if_true]

/-! ## The contract -/

/-- **Accepted values against the configuration they are written into.** The NixOS setting always
reads back; nix.conf does exactly when the URL holds no `#`. -/
theorem written_values_iff (net : Net) (hempty : net.parse "" = none) {what puller : String}
    {keys : List String} (hp : checkUrl net what puller = .ok ())
    (hk : ∀ k ∈ keys, checkKey k = .ok ()) :
    (parseConf (Nixconf.lines puller keys) =
        some [("extra-substituters", [puller]), ("extra-trusted-public-keys", keys)] ∧
      parseBinding (Nixconf.nixosSnippet puller keys) = some (["nix", "settings"],
        [("substituters", [puller]), ("trusted-public-keys", keys)]) ↔ '#' ∉ puller.toList) ∧
    parseBinding (Nixconf.nixosSnippet puller keys) = some (["nix", "settings"],
      [("substituters", [puller]), ("trusted-public-keys", keys)]) := by
  obtain ⟨hchars, url, hparse, -⟩ := checkUrl_eq_ok.mp hp
  have hkeys : ∀ k ∈ keys, validKey k = true := fun k hin => checkKey_ok (hk k hin)
  have hsnippet := snippet_reads_back hchars hkeys
  have hne : puller ≠ "" := by
    rintro rfl
    rw [hempty] at hparse
    exact absurd hparse (by simp)
  refine ⟨?_, hsnippet⟩
  rw [parseConf_lines hchars hkeys, and_iff_left hsnippet]
  constructor
  · intro h hin
    have hread : (words (uncomment puller.toList)).map String.ofList = [puller] := by
      simpa using h
    -- what stands before the `#` is one word or none, and neither is the URL
    by_cases hcut : uncomment puller.toList = []
    · rw [hcut] at hread
      exact absurd hread (by simp)
    · have hword : IsWord (uncomment puller.toList) :=
        ⟨hcut, fun c hc => url_blank (hchars c (mem_uncomment hc).1)⟩
      rw [words_of_isWord hword, List.map_singleton, List.singleton_inj] at hread
      have heq : uncomment puller.toList = puller.toList := by
        rw [← String.toList_ofList (l := uncomment puller.toList), hread]
      rw [← heq] at hin
      exact (mem_uncomment hin).2 rfl
  · intro hnot
    have hword : IsWord puller.toList :=
      ⟨fun he => hne (String.toList_injective he), fun c hc => url_blank (hchars c hc)⟩
    rw [uncomment_eq_self hnot, words_of_isWord hword]
    simp

/-! ### A URL with a fragment -/

namespace Fragment

/-- The parser on absolute `https` URLs of one host. -/
def net : Net where
  parse url := if startsWith "https://cache.example" url then
    some ⟨"https", some "cache.example"⟩ else none
  isLoopback _ := false

end Fragment

/-- **A fragment passes the check and is cut off in nix.conf.** -/
theorem fragment_is_cut_off :
    checkUrl Fragment.net "puller_endpoint" "https://cache.example/#x" = .ok () ∧
    (∀ k ∈ ["garret-1:AAAA"], checkKey k = .ok ()) ∧
    parseConf (Nixconf.lines "https://cache.example/#x" ["garret-1:AAAA"]) =
      some [("extra-substituters", ["https://cache.example/"]),
        ("extra-trusted-public-keys", ["garret-1:AAAA"])] := by
  decide +kernel

theorem written_values_iff_plain :
    parseConf (Nixconf.lines "https://cache.example" ["garret-1:AAAA", "garret-2:BBBB="]) =
      some [("extra-substituters", ["https://cache.example"]),
        ("extra-trusted-public-keys", ["garret-1:AAAA", "garret-2:BBBB="])] := by
  have hurl : checkUrl Fragment.net "puller_endpoint" "https://cache.example" = .ok () := by
    decide +kernel
  exact ((written_values_iff Fragment.net (by decide) hurl
    (by decide +kernel)).1.mpr (by decide)).1

end Garret
