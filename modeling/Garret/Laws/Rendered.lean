import Garret.Db.Read
import Garret.Lib.Utf8
import Garret.Upload.Built

/-!
# What is served parses back, and is what was signed

The reader's side of a narinfo: lines, fields and reference tokens, and the fingerprint nix makes of
them. `render` (`crates/garret-server/src/narinfo.rs`) prints the fields of a row one per line;
every value was checked by a validator of its own on the way in (`Built`).

* `render_parses_back`: the text has the fields of the object, in order, and no other line.
* `signed_is_recomputed`: what `get_object` returns after the insert verifies, and the fingerprint
  recomputed from the rendered fields is the one that was signed.
-/

namespace Garret

open Garret.Lib

/-! ## Reading a narinfo -/

/-- `s.split(c)`. -/
def splitChar (c : Char) (s : String) : List String := (s.toList.splitOn c).map String.ofList

/-- A line at its first `": "`, on characters. -/
def splitColon : List Char → Option (List Char × List Char)
  | ':' :: ' ' :: rest => some ([], rest)
  | c :: rest => (splitColon rest).map fun f => (c :: f.1, f.2)
  | [] => none

/-- A line at its first `": "`. -/
def splitField (line : String) : Option (String × String) :=
  (splitColon line.toList).map fun f => (String.ofList f.1, String.ofList f.2)

/-- The fields of a narinfo: every line is one, and the text ends with a newline. -/
def parseNarinfo (text : String) : Option (List (String × String)) :=
  let lines := splitChar '\n' text
  if lines.getLast? = some "" then lines.dropLast.mapM splitField else none

/-- The first line of that key. -/
def narinfoField (text key : String) : Option String :=
  ((splitChar '\n' text).filterMap splitField).lookup key

/-- The tokens of the `References` line. -/
def tokens (value : String) : List String := (splitChar ' ' value).filter (· ≠ "")

/-- Byte order. -/
def byteLe (a b : String) : Bool := decide (utf8 a.toList ≤ utf8 b.toList)

/-- The fingerprint nix makes of a narinfo's own fields. -/
def recompute (storeDir : String) (field : String → Option String) : Option String := do
  let storePath ← field "StorePath"
  let narHash ← field "NarHash"
  let narSize ← field "NarSize"
  let references ← field "References"
  let refs := ((tokens references).map fun r => storeDir ++ "/" ++ r).insertionSort (byteLe · ·)
  return "1;" ++ storePath ++ ";" ++ narHash ++ ";" ++ narSize ++ ";" ++ String.intercalate "," refs

/-! ## The fields of an object -/

/-- The fields every narinfo has, in order. -/
def Object.leadFields (o : Object) : List (String × String) :=
  [("StorePath", o.storePath), ("URL", narUrl o.storePathHash), ("Compression", "zstd"),
    ("FileHash", o.fileHash), ("FileSize", toString o.fileSize), ("NarHash", o.narHash),
    ("NarSize", toString o.narSize), ("References", String.intercalate " " o.references)]

/-- The fields that follow: the deriver and the content address when set, and the signatures. -/
def Object.tailFields (o : Object) : List (String × String) :=
  o.deriver.toList.map (("Deriver", ·)) ++ o.ca.toList.map (("CA", ·)) ++ o.sigs.map (("Sig", ·))

/-- What a narinfo says about an object, in order. -/
def Object.fields (o : Object) : List (String × String) := o.leadFields ++ o.tailFields

/-- A field's line, without its end. -/
def fieldLine (f : String × String) : String := f.1 ++ ": " ++ f.2

/-- The lines of some fields. -/
def fieldText (fs : List (String × String)) : List Char :=
  fs.flatMap fun f => (fieldLine f).toList ++ ['\n']

theorem toList_join (ls : List String) : (String.join ls).toList = ls.flatMap String.toList := by
  induction ls with
  | nil => rfl
  | cons l ls ih => rw [String.join_cons, String.toList_append, ih, List.flatMap_cons]

/-- The text is the lines of the fields. -/
theorem render_eq (o : Object) :
    (render o).toList = fieldText o.leadFields ++ fieldText o.tailFields := by
  have hsigs : (String.join (o.sigs.map (writeField "Sig"))).toList =
      fieldText (o.sigs.map (("Sig", ·))) := by
    rw [toList_join, fieldText, List.flatMap_map, List.flatMap_map]
    simp [writeField, fieldLine]
  unfold render Object.tailFields
  rw [String.toList_append, hsigs]
  cases o.deriver <;> cases o.ca <;> simp [writeField, fieldLine, fieldText, Object.leadFields]

/-! ## Lines and fields -/

theorem splitOn_lines {lines : List (List Char)} (h : ∀ l ∈ lines, '\n' ∉ l) (rest : List Char) :
    (lines.flatMap (· ++ ['\n']) ++ rest).splitOn '\n' = lines ++ rest.splitOn '\n' := by
  induction lines with
  | nil => rfl
  | cons l lines ih =>
    have hl : '\n' ∉ l := h l List.mem_cons_self
    rw [List.flatMap_cons, List.append_assoc, List.append_assoc, List.singleton_append,
      List.splitOn_append_cons_self, List.splitOn_eq_singleton hl,
      ih fun x hx => h x (List.mem_cons_of_mem _ hx)]
    rfl

/-- The lines of a text that starts with fields without a newline. -/
theorem splitChar_fields {text : String} {fs : List (String × String)} {rest : List Char}
    (htext : text.toList = fieldText fs ++ rest) (h : ∀ f ∈ fs, '\n' ∉ (fieldLine f).toList) :
    splitChar '\n' text = fs.map fieldLine ++ splitChar '\n' (String.ofList rest) := by
  have hlines : (fieldText fs ++ rest).splitOn '\n' =
      (fs.map fun f => (fieldLine f).toList) ++ rest.splitOn '\n' := by
    rw [← splitOn_lines (List.forall_mem_map.mpr h), List.flatMap_map, fieldText]
  unfold splitChar
  rw [htext, hlines]
  simp

theorem splitColon_of_not_mem {rest : List Char} : ∀ {key : List Char}, ':' ∉ key →
    splitColon (key ++ ':' :: ' ' :: rest) = some (key, rest)
  | [], _ => rfl
  | c :: key, h => by
    rw [List.mem_cons, not_or] at h
    have hc : c ≠ ':' := fun e => h.1 e.symm
    rw [List.cons_append, splitColon, splitColon_of_not_mem h.2]
    · rfl
    · rintro _ rfl
      exact absurd rfl hc

/-- A line splits into its key and value. -/
theorem splitField_line {f : String × String} (h : ':' ∉ f.1.toList) :
    splitField (fieldLine f) = some f := by
  unfold splitField fieldLine
  have hl : (f.1 ++ ": " ++ f.2).toList = f.1.toList ++ ':' :: ' ' :: f.2.toList := by simp
  rw [hl, splitColon_of_not_mem h]
  simp

theorem splitField_lines {fs : List (String × String)} (h : ∀ f ∈ fs, ':' ∉ f.1.toList) :
    (fs.map fieldLine).mapM splitField = some fs ∧ (fs.map fieldLine).filterMap splitField = fs := by
  induction fs with
  | nil => exact ⟨rfl, rfl⟩
  | cons f fs ih =>
    have hf := splitField_line (h f List.mem_cons_self)
    obtain ⟨hm, hfm⟩ := ih fun x hx => h x (List.mem_cons_of_mem _ hx)
    refine ⟨?_, ?_⟩
    · rw [List.map_cons, List.mapM_cons, hf, hm]
      rfl
    · rw [List.map_cons, List.filterMap_cons_some hf, hfm]

theorem forall_leadFields {o : Object} {P : String × String → Prop} :
    (∀ f ∈ o.leadFields, P f) ↔
      P ("StorePath", o.storePath) ∧ P ("URL", narUrl o.storePathHash) ∧
        P ("Compression", "zstd") ∧ P ("FileHash", o.fileHash) ∧
        P ("FileSize", toString o.fileSize) ∧ P ("NarHash", o.narHash) ∧
        P ("NarSize", toString o.narSize) ∧
        P ("References", String.intercalate " " o.references) := by
  simp only [Object.leadFields, List.forall_mem_cons, List.not_mem_nil, false_imp_iff,
    implies_true, and_true]

theorem forall_tailFields {o : Object} {P : String × String → Prop} :
    (∀ f ∈ o.tailFields, P f) ↔
      (∀ d ∈ o.deriver, P ("Deriver", d)) ∧ (∀ ca ∈ o.ca, P ("CA", ca)) ∧
        ∀ sig ∈ o.sigs, P ("Sig", sig) := by
  simp only [Object.tailFields, List.forall_mem_append, List.forall_mem_map, Option.mem_toList,
    Option.mem_def, and_assoc]

/-- The line breaks a reader may split at. -/
def lineBreaks : List Char := ['\n', '\r']

/-- No key has a separator in it. -/
theorem fields_keys (o : Object) :
    ∀ f ∈ o.fields, ':' ∉ f.1.toList ∧ ∀ c ∈ lineBreaks, c ∉ f.1.toList := by
  rw [Object.fields, List.forall_mem_append, forall_leadFields, forall_tailFields]
  simp [lineBreaks]

/-! ## Values on one line -/

section

variable {c : Char}

theorem not_mem_append {a b : String} (ha : c ∉ a.toList) (hb : c ∉ b.toList) :
    c ∉ (a ++ b).toList := by
  rw [String.toList_append, List.mem_append, not_or]
  exact ⟨ha, hb⟩

theorem forall_lineBreaks {p : Char → Prop} : (∀ c ∈ lineBreaks, p c) ↔ p '\n' ∧ p '\r' := by
  simp [lineBreaks]

/-- A text of characters of one kind has no line break, if no line break is of that kind. -/
theorem not_mem_of_chars {p : Char → Bool} {s : String} (hp : ∀ c ∈ lineBreaks, p c = false)
    (hc : c ∈ lineBreaks) (h : ∀ x ∈ s.toList, p x = true) : c ∉ s.toList := by
  intro hin
  have := h c hin
  rw [hp c hc] at this
  exact absurd this (by simp)

theorem isNameChar_lineBreaks : ∀ c ∈ lineBreaks, isNameChar c = false :=
  forall_lineBreaks.mpr (by decide)

theorem IsBasename.not_mem {base hash name : String} (h : IsBasename base hash name)
    (hc : c ∈ lineBreaks) : c ∉ base.toList := not_mem_of_chars isNameChar_lineBreaks hc h.chars

theorem not_mem_sha256 {digest : String} (h : isNixBase32 digest = true) (hc : c ∈ lineBreaks) :
    c ∉ ("sha256:" ++ digest).toList := by
  have hpre : ∀ c ∈ lineBreaks, c ∉ "sha256:".toList :=
    forall_lineBreaks.mpr (by decide)
  exact not_mem_append (hpre c hc)
    (not_mem_of_chars isNameChar_lineBreaks hc (isNameChar_of_base32 h))

theorem not_mem_nat (n : ℕ) (hc : c ∈ lineBreaks) : c ∉ (toString n).toList := by
  have hdigit : ∀ c ∈ lineBreaks, c.isDigit = false := forall_lineBreaks.mpr (by decide)
  refine not_mem_of_chars hdigit hc fun x hx => ?_
  rw [Nat.toString_eq_ofList_toDigits, String.toList_ofList] at hx
  exact Nat.isDigit_of_mem_toDigits (by decide) (by decide) hx

theorem not_mem_int (n : Int) (hc : c ∈ lineBreaks) : c ∉ (toString n).toList := by
  cases n with
  | ofNat n => exact not_mem_nat n hc
  | negSucc n =>
    have hminus : ∀ c ∈ lineBreaks, c ∉ "-".toList := forall_lineBreaks.mpr (by decide)
    exact not_mem_append (hminus c hc) (not_mem_nat (n + 1) hc)

theorem not_mem_intercalate {sep : String} (hsep : c ∉ sep.toList) : ∀ {l : List String},
    (∀ s ∈ l, c ∉ s.toList) → c ∉ (String.intercalate sep l).toList
  | [], _ => by simp
  | [s], h => by simpa using h
  | s :: t :: l, h => by
    rw [String.intercalate_cons_cons]
    exact not_mem_append (not_mem_append (h s List.mem_cons_self) hsep)
      (not_mem_intercalate hsep fun x hx => h x (List.mem_cons_of_mem _ hx))

end

/-! ## Reference tokens -/

/-- Names without a space are the tokens of their list. -/
theorem tokens_intercalate {refs : List String} (h : ∀ r ∈ refs, ' ' ∉ r.toList ∧ r ≠ "") :
    tokens (String.intercalate " " refs) = refs := by
  unfold tokens splitChar
  rw [String.toList_intercalate]
  cases refs with
  | nil => rfl
  | cons r refs =>
    have hsplit : ([' '].intercalate ((r :: refs).map String.toList)).splitOn ' ' =
        (r :: refs).map String.toList := by
      refine List.splitOn_intercalate ' ' ?_ (by simp)
      exact List.forall_mem_map.mpr fun x hx => (h x hx).1
    have hmap : ((r :: refs).map String.toList).map String.ofList = r :: refs := by simp
    rw [show " ".toList = [' '] from rfl, hsplit, hmap]
    refine List.filter_eq_self.mpr fun x hx => ?_
    simpa using (h x hx).2

theorem IsBasename.token {base hash name : String} (h : IsBasename base hash name) :
    ' ' ∉ base.toList ∧ base ≠ "" := by
  refine ⟨fun hc => absurd (h.chars _ hc) (by decide), ?_⟩
  rw [h.base_eq]
  intro he
  have := congrArg String.toList he
  simp at this

/-! ## The narinfo of a stored upload -/

section

variable {δ : Type} {srv : Server δ}

/-- `B64.encode` writes the standard alphabet and its padding. -/
def isB64Char (c : Char) : Bool := c.isAlphanum || c == '+' || c == '/' || c == '='

/-- The object of an admitted preamble, its blob stored and its signatures made. -/
structure Signed (srv : Server δ) (hash subject : String) (preamble : Preamble) (signed : Object) :
    Prop where
  built : ∃ o digest fileSize, buildObject srv hash preamble subject = .ok o ∧
    signed = { o with
      fileHash := sha256Nix32 digest, fileSize := fileSize, sigs := signed.sigs }
  sigs : sign signed srv.storeDir srv.keys = .ok signed.sigs

/-- What a transfer signed is such an object. -/
theorem transfer_signed {hash subject : String} {t : Transfer} {signed : Object}
    (h : (transfer srv hash subject t).result = .ok signed) :
    ∃ preamble, Signed srv hash subject preamble signed := by
  obtain ⟨blob, preamble, object, -, -, hclaim, heq, hsign⟩ :=
    (transfer_sound hash subject t).signed signed h
  exact ⟨preamble, ⟨object, srv.sha256 blob, blob.length, hclaim.built, heq⟩, hsign⟩

variable {hash subject : String} {preamble : Preamble} {o : Object}

/-- What was checked of the object still holds: only its blob's fields and signatures were set. -/
theorem Signed.checked (h : Signed srv hash subject preamble o) : Built srv hash preamble o := by
  obtain ⟨⟨b, digest, fileSize, hb, heq⟩, -⟩ := h
  obtain ⟨h1, h2, h3, h4, h5, h6, h7, h8, h9⟩ := buildObject_built hb
  rw [heq]
  exact ⟨h1, h2, h3, h4, h5, h6, h7, h8, h9⟩

theorem Signed.fileHash (h : Signed srv hash subject preamble o) :
    ∃ digest, o.fileHash = sha256Nix32 digest := by
  obtain ⟨⟨b, digest, fileSize, -, heq⟩, -⟩ := h
  exact ⟨digest, by rw [heq]⟩

/-- The values every narinfo has are one line, if the store directory is. -/
theorem Signed.leadFields (h : Signed srv hash subject preamble o) {c : Char}
    (hc : c ∈ lineBreaks) (hdir : c ∉ srv.storeDir.toList) :
    ∀ f ∈ o.leadFields, c ∉ f.2.toList := by
  have hb := h.checked
  obtain ⟨_, _, hbase⟩ := hb.base
  obtain ⟨digest, hfile⟩ := h.fileHash
  obtain ⟨nar, hnar, hnar32⟩ := hb.narHash
  have hlit : ∀ c ∈ lineBreaks, c ∉ "/".toList ∧ c ∉ "zstd".toList ∧ c ∉ " ".toList ∧
      c ∉ "nar/".toList ∧ c ∉ ".nar.zst".toList := forall_lineBreaks.mpr (by decide)
  obtain ⟨hslash, hzstd, hspace, hnardir, hsuffix⟩ := hlit c hc
  -- the hash of the URL is the hash of the basename
  have hhash : c ∉ hash.toList := by
    have := hbase.not_mem hc
    rw [String.toList_append, String.toList_append, List.mem_append, List.mem_append] at this
    exact fun hin => this (Or.inl (Or.inl hin))
  rw [forall_leadFields]
  refine ⟨?_, ?_, hzstd, ?_, not_mem_int _ hc, ?_, not_mem_int _ hc, ?_⟩
  · rw [hb.storePath]
    exact not_mem_append (not_mem_append hdir hslash) (hbase.not_mem hc)
  · rw [hb.storePathHash]
    exact not_mem_append (not_mem_append hnardir hhash) hsuffix
  · rw [hfile]
    exact not_mem_sha256 (isNixBase32_encode _) hc
  · rw [hnar]
    exact not_mem_sha256 hnar32 hc
  · refine not_mem_intercalate hspace fun r hr => ?_
    obtain ⟨_, _, hname⟩ := hb.basenames r hr
    exact hname.not_mem hc

/-- The values that may follow are one line, for keys whose name is. -/
theorem Signed.tailFields (h : Signed srv hash subject preamble o) {c : Char}
    (hc : c ∈ lineBreaks) (hname : ∀ k ∈ srv.keys, c ∉ k.name.toList)
    (hb64 : ∀ k ∈ srv.keys, ∀ fp, (k.signature fp).toList.all isB64Char = true) :
    ∀ f ∈ o.tailFields, c ∉ f.2.toList := by
  have hb := h.checked
  rw [forall_tailFields]
  refine ⟨fun d hd => ?_, fun ca hca => ?_, fun sig hsig => ?_⟩
  · obtain ⟨_, _, hd⟩ := hb.deriver d hd
    exact hd.not_mem hc
  · have hca := hb.ca ca hca
    rcases List.mem_cons.mp hc with rfl | hc
    · exact hca.1
    · rw [List.mem_singleton.mp hc]
      exact hca.2
  · have hs := h.sigs
    unfold sign at hs
    split at hs
    · exact absurd hs (by simp)
    · rw [← Except.ok.inj hs] at hsig
      obtain ⟨k, hk, rfl⟩ := List.mem_map.mp hsig
      have hcolon : ∀ c ∈ lineBreaks, c ∉ ":".toList ∧ isB64Char c = false :=
        forall_lineBreaks.mpr (by decide)
      exact not_mem_append (not_mem_append (hname k hk) (hcolon c hc).1)
        (not_mem_of_chars (fun c hc => (hcolon c hc).2) hc (List.all_eq_true.mp (hb64 k hk _)))

/-- A field of one-line values is one line. -/
theorem fieldLine_not_mem {f : String × String} (hf : f ∈ o.fields) {c : Char}
    (hc : c ∈ lineBreaks) (hv : c ∉ f.2.toList) : c ∉ (fieldLine f).toList := by
  have hsep : ∀ c ∈ lineBreaks, c ∉ ": ".toList := forall_lineBreaks.mpr (by decide)
  exact not_mem_append (not_mem_append ((fields_keys o f hf).2 c hc) (hsep c hc)) hv

/-- **A rendered narinfo parses back and cannot be injected into.** Its lines are the object's
fields, in order, and the empty rest after the last newline; each line splits at its first `": "`
into the field; the tokens of `References` are the references; and there is no carriage return. -/
theorem render_parses_back (h : Signed srv hash subject preamble o)
    (hdir : ∀ c ∈ lineBreaks, c ∉ srv.storeDir.toList)
    (hname : ∀ c ∈ lineBreaks, ∀ k ∈ srv.keys, c ∉ k.name.toList)
    (hb64 : ∀ k ∈ srv.keys, ∀ fp, (k.signature fp).toList.all isB64Char = true) :
    splitChar '\n' (render o) = o.fields.map fieldLine ++ [""] ∧
    parseNarinfo (render o) = some o.fields ∧
    ((parseNarinfo (render o)).bind (List.lookup "References")).map tokens = some o.references ∧
    '\r' ∉ (render o).toList := by
  have hlines : ∀ c ∈ lineBreaks, ∀ f ∈ o.fields, c ∉ (fieldLine f).toList := by
    intro c hc f hf
    refine fieldLine_not_mem hf hc ?_
    rcases List.mem_append.mp hf with hlead | htail
    · exact h.leadFields hc (hdir c hc) f hlead
    · exact h.tailFields hc (hname c hc) hb64 f htail
  have htext : (render o).toList = fieldText o.fields ++ [] := by
    rw [render_eq, Object.fields, List.append_nil]
    exact (List.flatMap_append ..).symm
  have hsplit : splitChar '\n' (render o) = o.fields.map fieldLine ++ [""] :=
    splitChar_fields htext (hlines '\n' (by decide))
  have hparse : parseNarinfo (render o) = some o.fields := by
    unfold parseNarinfo
    simp only [hsplit, List.getLast?_append, List.getLast?_singleton, Option.some_or, if_true,
      List.dropLast_concat]
    exact (splitField_lines fun f hf => (fields_keys o f hf).1).1
  refine ⟨hsplit, hparse, ?_, ?_⟩
  · have hlookup : o.fields.lookup "References" = some (String.intercalate " " o.references) := rfl
    rw [hparse, Option.bind_some, hlookup, Option.map_some, tokens_intercalate]
    intro r hr
    obtain ⟨_, _, hbase⟩ := h.checked.basenames r hr
    exact hbase.token
  · rw [htext, List.append_nil, fieldText, List.mem_flatMap]
    rintro ⟨f, hf, hin⟩
    rcases List.mem_append.mp hin with hin | hin
    · exact hlines '\r' (by decide) f hf hin
    · exact absurd hin (by decide)

/-! ## What is signed is what nix recomputes -/

/-- Sorting by bytes is sorting. -/
theorem insertionSort_byteLe (l : List String) :
    l.insertionSort (fun a b => byteLe a b) = l.insertionSort (· ≤ ·) := by
  have hle : ∀ a b, (byteLe a b = true) = (a ≤ b) := by
    intro a b
    rw [byteLe, decide_eq_true_eq, utf8_le_iff]
  simp only [hle]

/-- The fields the fingerprint is made of. -/
def signedKeys : List String := ["StorePath", "NarHash", "NarSize", "References"]

theorem lookup_signedKeys (o : Object) :
    ∀ key ∈ signedKeys, ∃ v, o.leadFields.lookup key = some v := by
  simp only [signedKeys, List.forall_mem_cons, List.not_mem_nil, false_imp_iff, implies_true,
    and_true]
  exact ⟨⟨_, rfl⟩, ⟨_, rfl⟩, ⟨_, rfl⟩, ⟨_, rfl⟩⟩

/-- A reader that finds the four fields recomputes the fingerprint. -/
theorem recompute_eq {storeDir : String} {field : String → Option String}
    (hrefs : ∀ r ∈ o.references, ∃ h n, IsBasename r h n)
    (h : ∀ key ∈ signedKeys, field key = o.leadFields.lookup key) :
    recompute storeDir field = some (fingerprint o storeDir) := by
  have h1 : field "StorePath" = some o.storePath := h _ (by decide)
  have h2 : field "NarHash" = some o.narHash := h _ (by decide)
  have h3 : field "NarSize" = some (toString o.narSize) := h _ (by decide)
  have h4 : field "References" = some (String.intercalate " " o.references) := h _ (by decide)
  have htok : tokens (String.intercalate " " o.references) = o.references := by
    refine tokens_intercalate fun r hr => ?_
    obtain ⟨_, _, hbase⟩ := hrefs r hr
    exact hbase.token
  unfold recompute
  rw [h1, h2, h3, h4]
  simp only [Option.bind_eq_bind, Option.bind_some, htok, insertionSort_byteLe]
  rfl

/-- The leading fields are found in the text, whatever follows them. -/
theorem narinfoField_lead (h : Signed srv hash subject preamble o)
    (hdir : '\n' ∉ srv.storeDir.toList) {key : String} (hkey : key ∈ signedKeys) :
    narinfoField (render o) key = o.leadFields.lookup key := by
  have hmem : ∀ f ∈ o.leadFields, f ∈ o.fields := fun f hf => List.mem_append_left _ hf
  have hsplit := splitChar_fields (render_eq o) fun f hf =>
    fieldLine_not_mem (hmem f hf) (by decide) (h.leadFields (by decide) hdir f hf)
  obtain ⟨v, hv⟩ := lookup_signedKeys o key hkey
  unfold narinfoField
  rw [hsplit, List.filterMap_append,
    (splitField_lines fun f hf => (fields_keys o f (hmem f hf)).1).2, List.lookup_append, hv]
  rfl

/-- A committed object with sorted references is read back as it is. -/
theorem InsertedBy.read_back {now : Int} {db db' : Db} (h : InsertedBy o now db db')
    (hsorted : o.references.Pairwise (· ≤ ·)) : db'.object? o.storePathHash = some o := by
  unfold Db.object? Db.references
  rw [h.row?, if_pos rfl, h.refsOf_self, Option.map_some, hsorted.insertionSort_eq]
  rfl

/-- The signatures are each key's signature of the fingerprint. -/
theorem Signed.sigs_eq (h : Signed srv hash subject preamble o) :
    o.sigs = srv.keys.map fun k => k.sign (fingerprint o srv.storeDir) := by
  have hs := h.sigs
  unfold sign at hs
  split at hs
  · exact absurd hs (by simp)
  · exact (Except.ok.inj hs).symm

/-- **What is signed is what nix recomputes.** Whatever order the client listed the references in,
the object is the same; once inserted it is read back as it was signed, its references in byte
order; its signatures verify under the keys that made them; and what they sign is what a reader
recomputes from the fields of the narinfo. -/
theorem signed_is_recomputed (h : Signed srv hash subject preamble o) {io : Faults} {at' : Int}
    {db : Db} (hins : (insertObject io o at' db).1 = .ok ()) :
    (∀ references : List String, references.Perm preamble.references →
      Signed srv hash subject { preamble with references := references } o) ∧
    (∀ io' k got, getObject io' k hash (insertObject io o at' db).2 = .ok got → got = some o) ∧
    getObject noFaults 0 hash (insertObject io o at' db).2 = .ok (some o) ∧
    o.references.Pairwise (fun a b => byteLe a b) ∧
    verify o srv.storeDir srv.keys = true ∧
    ∃ fp, o.sigs = srv.keys.map (fun k => k.sign fp) ∧
      recompute srv.storeDir (fun key => o.fields.lookup key) = some fp ∧
      ('\n' ∉ srv.storeDir.toList →
        recompute srv.storeDir (narinfoField (render o)) = some fp) := by
  have hb := h.checked
  have hread : (insertObject io o at' db).2.object? hash = some o := by
    rcases insertObject_cases (Prod.mk.eta (p := insertObject io o at' db)).symm with
      ⟨-, hi⟩ | ⟨⟨e, he⟩, -⟩
    · rw [← hb.storePathHash]
      exact hi.read_back hb.sorted
    · rw [hins] at he
      exact absurd he (by simp)
  refine ⟨fun references hperm => ?_, fun io' k got hgot => ?_, ?_, ?_, ?_, ?_⟩
  · obtain ⟨⟨b, digest, fileSize, hbuild, heq⟩, hsigs⟩ := h
    exact ⟨⟨b, digest, fileSize, buildObject_perm hbuild hperm, heq⟩, hsigs⟩
  · rw [getObject_ok hgot, hread]
  · obtain ⟨row, hrow, hobj⟩ := Option.map_eq_some_iff.mp hread
    unfold getObject
    simp only [statement, noFaults, hrow]
    exact congrArg (fun x => Except.ok (some x)) hobj
  · refine hb.sorted.imp fun hle => ?_
    rw [byteLe, decide_eq_true_eq]
    exact utf8_le_iff.mpr hle
  · exact (sigsVerify_sign h.sigs rfl rfl).2
  · refine ⟨fingerprint o srv.storeDir, h.sigs_eq, ?_, fun hdir => ?_⟩
    · refine recompute_eq hb.basenames fun key hkey => ?_
      obtain ⟨v, hv⟩ := lookup_signedKeys o key hkey
      rw [Object.fields, List.lookup_append, hv]
      rfl
    · exact recompute_eq hb.basenames fun key hkey => narinfoField_lead h hdir hkey

end

/-! ## One narinfo -/

namespace Sample

/-- An ed25519 key's signature of the one fingerprint the example signs. -/
def signature (fp : String) : String :=
  if fp = "1;/nix/store/0c7qrl7qkgy1ypf0n3c8b1kz3w5hlm2d-app;" ++
      "sha256:1q6zw3dd7l2vnwk06rlnzwl8g1582sbagj6hccngspc7yvhrip52;6;" ++
      "/nix/store/0c7qrl7qkgy1ypf0n3c8b1kz3w5hlm2d-app," ++
      "/nix/store/1yv7kz2w3c9r5x0ab4d6fgh8jlmnpqrs-lib" then
    "0c/l2B5w181OWsuIHZ65VUGdw8S2Axepgtd7mbTWz5rbMgYsGaLn2C4hTO5NXVZI9wnv/u7OCx5VINRPiazsBQ=="
  else ""

/-- That key. -/
def key : SigningKeyFile where
  name := "cache-1"
  signature := signature
  accepts := fun sig fp => sig == signature fp
  name_colon := by decide
  accepts_signature := fun _ => beq_self_eq_true _

/-- The server with that key. -/
def signing : Server Bytes := { server with keys := [key] }

/-- The example's preamble: it refers to a library and to itself, in that order, and has a deriver
and a content address. -/
def derived : Preamble where
  storePath := "/nix/store/0c7qrl7qkgy1ypf0n3c8b1kz3w5hlm2d-app"
  narHash := "sha256:1q6zw3dd7l2vnwk06rlnzwl8g1582sbagj6hccngspc7yvhrip52"
  narSize := 6
  references := ["/nix/store/1yv7kz2w3c9r5x0ab4d6fgh8jlmnpqrs-lib",
    "/nix/store/0c7qrl7qkgy1ypf0n3c8b1kz3w5hlm2d-app"]
  deriver := some "/nix/store/2w4y6z8a0b1c3d5f7g9h1j2k4l6m8n0p-app.drv"
  ca := some "fixed:r:sha256:1q6zw3dd7l2vnwk06rlnzwl8g1582sbagj6hccngspc7yvhrip52"

/-- What is signed for it. -/
def derivedObject : Object where
  storePathHash := hash
  storePath := "/nix/store/0c7qrl7qkgy1ypf0n3c8b1kz3w5hlm2d-app"
  name := "app"
  narHash := "sha256:1q6zw3dd7l2vnwk06rlnzwl8g1582sbagj6hccngspc7yvhrip52"
  narSize := 6
  fileHash := sha256Nix32 (sha256 frame)
  fileSize := 15
  deriver := some "2w4y6z8a0b1c3d5f7g9h1j2k4l6m8n0p-app.drv"
  ca := some "fixed:r:sha256:1q6zw3dd7l2vnwk06rlnzwl8g1582sbagj6hccngspc7yvhrip52"
  references := ["0c7qrl7qkgy1ypf0n3c8b1kz3w5hlm2d-app", "1yv7kz2w3c9r5x0ab4d6fgh8jlmnpqrs-lib"]
  sigs := ["cache-1:" ++
    "0c/l2B5w181OWsuIHZ65VUGdw8S2Axepgtd7mbTWz5rbMgYsGaLn2C4hTO5NXVZI9wnv/u7OCx5VINRPiazsBQ=="]
  pushedBy := some "ci"

theorem derived_signed : Signed signing hash "ci" derived derivedObject := by
  refine ⟨⟨{ derivedObject with fileHash := "", fileSize := 0, sigs := [] }, sha256 frame, 15, ?_,
    rfl⟩, ?_⟩
  · decide +kernel
  · decide +kernel

end Sample

/-- The example's narinfo has eleven fields. -/
theorem render_parses_back_derived :
    parseNarinfo (render Sample.derivedObject) = some Sample.derivedObject.fields ∧
    Sample.derivedObject.fields.length = 11 := by
  have hb64 : ∀ k ∈ Sample.signing.keys, ∀ fp, (k.signature fp).toList.all isB64Char = true := by
    intro k hk fp
    obtain rfl := List.mem_singleton.mp hk
    change (Sample.signature fp).toList.all isB64Char = true
    unfold Sample.signature
    split
    · decide
    · rfl
  exact ⟨(render_parses_back Sample.derived_signed (forall_lineBreaks.mpr (by decide))
    (forall_lineBreaks.mpr (by decide)) hb64).2.1, rfl⟩

/-- The example is inserted, read back and recomputed from its narinfo. -/
theorem signed_is_recomputed_derived :
    (insertObject noFaults Sample.derivedObject 7 Db.empty).1 = .ok () ∧
    getObject noFaults 0 Sample.hash (insertObject noFaults Sample.derivedObject 7 Db.empty).2 =
      .ok (some Sample.derivedObject) ∧
    ∃ fp, Sample.derivedObject.sigs = [Sample.key.sign fp] ∧
      recompute "/nix/store" (narinfoField (render Sample.derivedObject)) = some fp := by
  have hins : (insertObject noFaults Sample.derivedObject 7 Db.empty).1 = .ok () := by
    decide +kernel
  obtain ⟨-, -, hget, -, -, fp, hsigs, -, htext⟩ := signed_is_recomputed Sample.derived_signed hins
  exact ⟨hins, hget, fp, hsigs, htext (by decide)⟩

end Garret
