import Legible.Dictionary.Json
import Mathlib.Tactic.SplitIfs
import Std.Data.TreeMap.Lemmas

/-!
# A dictionary that is saved can be loaded

What is saved of a dictionary is its entries, loaded and recorded ones together
(`Dictionary.getElem?_merged`). Reading what was written gives them back (`Json.read_write`), so
that a dictionary that is saved and loaded has the entries it had (`Dictionary.ofJson_toJson`).

The text is followed through the two steps of reading: scanning what is written for an entry leaves
the tokens of the entry, and the tokens of a list of entries give the map with all of them.
-/

namespace Legible

namespace Json

/-! ## Strings -/

theorem hexValue?_hexDigit : ∀ n < 16, hexValue? (hexDigit n) = some n := by decide

theorem hexUnit?_hexDigit {n : Nat} (hn : n < 0x20) :
    hexUnit? '0' '0' (hexDigit (n / 16)) (hexDigit (n % 16)) = some n := by
  have hzero : hexValue? '0' = some 0 := rfl
  simp only [hexUnit?, hzero, hexValue?_hexDigit (n / 16) (by omega),
    hexValue?_hexDigit (n % 16) (by omega), Option.bind_eq_bind, Option.bind_some,
    Option.some.injEq]
  omega

variable {c : Char} (content : List Char) (done : List Token) (rest : List Char)

theorem scan_shortEscape {e : Char} (h : shortEscape? e = some c) :
    scan (some content) done ('\\' :: e :: rest) = scan (some (c :: content)) done rest := by
  rw [scan]
  · simp [h]
  · rintro _ _ _ _ _ rfl
    cases h

theorem scan_control {n : Nat} (hn : n < 0x20) :
    scan (some content) done
        ('\\' :: 'u' :: '0' :: '0' :: hexDigit (n / 16) :: hexDigit (n % 16) :: rest)
      = scan (some (Char.ofNat n :: content)) done rest := by
  have hhigh : isHighSurrogate n = false := by simp [isHighSurrogate]; omega
  have hlow : isLowSurrogate n = false := by simp [isLowSurrogate]; omega
  rw [scan]
  simp [hexUnit?_hexDigit hn, hhigh, hlow]

theorem scan_plain (hquote : c ≠ '"') (hslash : c ≠ '\\') (hcontrol : ¬c.toNat < 0x20) :
    scan (some content) done (c :: rest) = scan (some (c :: content)) done rest := by
  rw [scan.eq_def]
  simp only [if_neg hquote, if_neg hslash, if_neg hcontrol]

theorem scan_escape (c : Char) :
    scan (some content) done (escape c ++ rest) = scan (some (c :: content)) done rest := by
  unfold escape
  split_ifs with hquote hslash hback hfeed hline hreturn htab hcontrol
  · exact scan_shortEscape _ _ _ (by rw [hquote]; rfl)
  · exact scan_shortEscape _ _ _ (by rw [hslash]; rfl)
  · exact scan_shortEscape _ _ _ (by rw [← Char.ofNat_toNat c, hback]; rfl)
  · exact scan_shortEscape _ _ _ (by rw [← Char.ofNat_toNat c, hfeed]; rfl)
  · exact scan_shortEscape _ _ _ (by rw [hline]; rfl)
  · exact scan_shortEscape _ _ _ (by rw [hreturn]; rfl)
  · exact scan_shortEscape _ _ _ (by rw [htab]; rfl)
  · simpa [Char.ofNat_toNat] using scan_control content done rest hcontrol
  · exact scan_plain content done rest hquote hslash hcontrol

theorem scan_flatMap_escape (cs : List Char) :
    scan (some content) done (cs.flatMap escape ++ rest)
      = scan (some (cs.reverse ++ content)) done rest := by
  induction cs generalizing content with
  | nil => rfl
  | cons c cs ih =>
    rw [List.flatMap_cons, List.append_assoc, scan_escape, ih]
    simp

theorem scan_openQuote : scan none done ('"' :: rest) = scan (some []) done rest := by
  delta scan
  rfl

theorem scan_closeQuote : scan (some content) done ('"' :: rest)
    = scan none (.text (String.ofList content.reverse) :: done) rest := by
  delta scan
  rfl

theorem scan_quote (s : String) :
    scan none done ((quote s).toList ++ rest) = scan none (.text s :: done) rest := by
  rw [quote, String.toList_ofList, List.cons_append, scan_openQuote, List.append_assoc,
    scan_flatMap_escape, List.singleton_append, scan_closeQuote]
  simp

/-! ## Entries -/

theorem scan_blank (h : isJsonBlank c = true) :
    scan none done (c :: rest) = scan none done rest := by
  rw [scan.eq_def]
  simp [h]

def Token.ofChar? (c : Char) : Option Token :=
  if c = '\x7b' then some .openBrace
  else if c = '\x7d' then some .closeBrace
  else if c = ':' then some .colon
  else if c = ',' then some .comma
  else none

theorem scan_ofChar? {token : Token} (h : Token.ofChar? c = some token) :
    scan none done (c :: rest) = scan none (token :: done) rest := by
  rw [scan.eq_def]
  unfold Token.ofChar? at h
  split_ifs at h with hopen hclose hcolon hcomma <;> cases h
  · simp [hopen, isJsonBlank]
  · simp [hclose, isJsonBlank]
  · simp [hcolon, isJsonBlank]
  · simp [hcomma, isJsonBlank]

theorem scan_openBrace : scan none done ('\x7b' :: rest) = scan none (.openBrace :: done) rest :=
  scan_ofChar? done rest rfl

theorem scan_closeBrace : scan none done ('\x7d' :: rest) = scan none (.closeBrace :: done) rest :=
  scan_ofChar? done rest rfl

theorem scan_comma : scan none done (',' :: rest) = scan none (.comma :: done) rest :=
  scan_ofChar? done rest rfl

def Token.ofValue : Option String → Token
  | some name => .text name
  | none => .null

theorem Token.value?_ofValue (value : Option String) : (ofValue value).value? = some value := by
  cases value <;> rfl

theorem scan_writeValue (value : Option String) :
    scan none done ((writeValue value).toList ++ rest)
      = scan none (.ofValue value :: done) rest := by
  cases value with
  | none => rfl
  | some name => exact scan_quote done rest name

def entryTokens (entry : String × Option String) : List Token :=
  [.text entry.1, .colon, .ofValue entry.2]

theorem scan_writeEntry (entry : String × Option String) :
    scan none done ((writeEntry entry).toList ++ rest)
      = scan none ((entryTokens entry).reverse ++ done) rest := by
  have hcolon : ∀ done cs, scan none done ((": ").toList ++ cs) = scan none (.colon :: done) cs :=
    fun done cs => (scan_ofChar? done (' ' :: cs) rfl).trans (scan_blank _ cs rfl)
  rw [writeEntry, String.toList_append, String.toList_append, List.append_assoc, List.append_assoc,
    scan_quote, hcolon, scan_writeValue]
  rfl

/-- The tokens of entries, with commas between them. -/
def entriesTokens : List (String × Option String) → List Token
  | [] => []
  | [entry] => entryTokens entry
  | entry :: rest => entryTokens entry ++ .comma :: entriesTokens rest

/-- Entries are read from the lines they are written as. -/
theorem scan_intercalate (entries : List (String × Option String)) :
    scan none done ((",\n  ".intercalate (entries.map writeEntry)).toList ++ rest)
      = scan none ((entriesTokens entries).reverse ++ done) rest := by
  have hcomma : ∀ done cs,
      scan none done ((",\n  ").toList ++ cs) = scan none (.comma :: done) cs := by
    intro done cs
    simp [scan_comma, scan_blank, isJsonBlank]
  induction entries generalizing done with
  | nil => rfl
  | cons entry entries ih =>
    cases entries with
    | nil =>
      simpa [String.toList_intercalate, entriesTokens] using scan_writeEntry done rest entry
    | cons next entries =>
      rw [String.toList_intercalate] at ih ⊢
      rw [List.map_cons, List.map_cons, List.map_cons, List.map_cons,
        List.intercalate_cons_cons, List.append_assoc, List.append_assoc, scan_writeEntry,
        hcomma, ← List.map_cons, ← List.map_cons, ih]
      simp [entriesTokens]

theorem members_entriesTokens (map : NameMap) {entries : List (String × Option String)}
    (h : entries ≠ []) :
    members map (entriesTokens entries ++ [.closeBrace]) = some (map.insertMany entries) := by
  induction entries generalizing map with
  | nil => exact absurd rfl h
  | cons entry entries ih =>
    obtain ⟨key, value⟩ := entry
    cases entries with
    | nil =>
      rw [Std.TreeMap.insertMany_list_singleton]
      simp [entriesTokens, entryTokens, members, Token.value?_ofValue]
    | cons next entries =>
      rw [Std.TreeMap.insertMany_cons, ← ih (map.insert key value) (List.cons_ne_nil _ _)]
      simp [entriesTokens, entryTokens, members, Token.value?_ofValue]

/-- An object is read from its tokens. -/
theorem object_entriesTokens {entries : List (String × Option String)} (h : entries ≠ []) :
    object (.openBrace :: (entriesTokens entries ++ [.closeBrace]))
      = some (Std.TreeMap.ofList entries) := by
  have hmembers := members_entriesTokens ∅ h
  rw [object, hmembers, Std.TreeMap.ofList_eq_insertMany_empty]
  -- the tokens do not end with the brace, because those of the first entry stand before it
  cases entries with
  | nil => exact absurd rfl h
  | cons entry entries => cases entries <;> simp [entriesTokens, entryTokens]

theorem read_write (entries : List (String × Option String)) :
    read (write entries ++ "\n") = some (Std.TreeMap.ofList entries) := by
  have hopen : ∀ cs, scan none [] (("\x7b\n  ").toList ++ cs) = scan none [.openBrace] cs := by
    simp [scan_openBrace, scan_blank, isJsonBlank]
  have hclose : ∀ done, scan none done (("\n\x7d").toList ++ "\n".toList)
      = some (done.reverse ++ [.closeBrace]) := by
    simp [scan_closeBrace, scan_blank, isJsonBlank, scan]
  cases entries with
  | nil => simp [read, write, scan_openBrace, scan_closeBrace, isJsonBlank, scan, object]
  | cons entry entries =>
    rw [read, write.eq_2 _ (List.cons_ne_nil entry entries), String.toList_append,
      String.toList_append, String.toList_append, List.append_assoc, List.append_assoc, hopen,
      scan_intercalate, hclose]
    simpa using object_entriesTokens (List.cons_ne_nil entry entries)

end Json

theorem getElem?_insertMany_toList (map upper : NameMap) (key : String) :
    (map.insertMany upper.toList)[key]? = upper[key]?.or map[key]? := by
  cases hupper : upper[key]? with
  | some value =>
    exact Std.TreeMap.getElem?_insertMany_list_of_mem Std.ReflCmp.compare_self
      Std.TreeMap.distinct_keys_toList (Std.TreeMap.mem_toList_iff_getElem?_eq_some.mpr hupper)
  | none =>
    refine Std.TreeMap.getElem?_insertMany_list_of_contains_eq_false ?_
    rw [Std.TreeMap.map_fst_toList_eq_keys, Std.TreeMap.contains_keys,
      Std.TreeMap.contains_eq_isSome_getElem?, hupper]
    rfl

namespace Dictionary

theorem getElem?_merged (d : Dictionary) (key : String) : d.merged[key]? = d.entry? key := by
  have hmany : ∀ (map : NameMap) (entries : List (String × Option String)),
      entries.foldl (fun m entry => m.insert entry.1 entry.2) map = map.insertMany entries := by
    intro map entries
    induction entries generalizing map with
    | nil => exact Std.TreeMap.insertMany_nil.symm
    | cons entry entries ih => rw [List.foldl_cons, ih, ← Std.TreeMap.insertMany_cons]
  rw [merged, Std.TreeMap.foldl_eq_foldl_toList, hmany, getElem?_insertMany_toList, entry?]

theorem toList_merged_congr {d d' : Dictionary} (h : ∀ key, d.entry? key = d'.entry? key) :
    d.merged.toList = d'.merged.toList :=
  (Std.TreeMap.Equiv.of_forall_constGet?_eq fun key => by
    rw [getElem?_merged, getElem?_merged, h]).toList_eq

theorem ofJson_toJson (origin : String) (d : Dictionary) :
    ∃ d', ofJson origin d.toJson = .ok d' ∧ ∀ key, d'.entry? key = d.entry? key := by
  refine ⟨{ loaded := Std.TreeMap.ofList d.merged.toList }, ?_, fun key => ?_⟩
  · rw [ofJson, toJson, Json.read_write]
  · have hloaded : (Std.TreeMap.ofList d.merged.toList)[key]? = d.merged[key]? := by
      rw [Std.TreeMap.ofList_eq_insertMany_empty, getElem?_insertMany_toList]
      simp
    simp [hloaded, getElem?_merged, entry?]

end Dictionary

end Legible
