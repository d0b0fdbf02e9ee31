import Legible.Proofs.Dictionary.RoundTrip

/-!
# Dictionaries that are saved and loaded on the way

All that a dictionary answers is read off its merged entries: the number of its keys, whether it has
a key, and the name of a key (`size_eq_length_keys`, `contains_iff_mem_merged`). Recording a name
and saving and loading both act on the entries alone, so a dictionary that is saved and loaded
anywhere between recordings answers as one that is kept in memory (`reloads_change_nothing`).
-/

namespace Legible

namespace Dictionary

variable {d d' : Dictionary}

/-! ## Entries -/

theorem entry?_record (d : Dictionary) (key : String) (name : Option String) (k : String) :
    entry? (d.record key name) k = if key = k then some name else d.entry? k := by
  by_cases h : key = k
  · subst h
    simp [record, entry?]
  · have hne : compare key k ≠ .eq := fun heq => h (Std.LawfulEqCmp.eq_of_compare heq)
    simp [record, entry?, Std.TreeMap.getElem?_insert, h, hne]

theorem lookup?_record (d : Dictionary) (key : String) (name : Option String) (k : String) :
    (d.record key name).lookup? k = if key = k then name.filter isIdentifier else d.lookup? k := by
  rw [lookup?, entry?_record]
  split <;> rfl

theorem mem_merged_iff (d : Dictionary) (key : String) :
    key ∈ d.merged ↔ (d.entry? key).isSome = true := by
  rw [Std.TreeMap.mem_iff_isSome_getElem?, getElem?_merged]

theorem contains_iff_mem_merged (d : Dictionary) (key : String) :
    d.contains key = true ↔ key ∈ d.merged := by
  rw [mem_merged_iff, contains, entry?, Option.isSome_or, Std.TreeMap.contains_eq_isSome_getElem?,
    Std.TreeMap.contains_eq_isSome_getElem?]

/-- Of entries with different keys, those count that the map has no entry for. -/
theorem size_foldl_insert {entries : List (String × Option String)}
    (h : entries.Pairwise fun e e' => e.1 ≠ e'.1) (map : NameMap) :
    (entries.foldl (fun m e => m.insert e.1 e.2) map).size
      = map.size + entries.countP fun e => !map.contains e.1 := by
  induction entries generalizing map with
  | nil => rfl
  | cons e entries ih =>
    obtain ⟨hne, hrest⟩ := List.pairwise_cons.mp h
    -- an entry before them does not change what the map has for the others
    have hcount : (entries.countP fun e' => !(map.insert e.1 e.2).contains e'.1)
        = entries.countP fun e' => !map.contains e'.1 := by
      refine List.countP_congr fun e' he' => ?_
      have hcompare : compare e.1 e'.1 ≠ .eq := fun heq =>
        hne e' he' (Std.LawfulEqCmp.eq_of_compare heq)
      simp [Std.TreeMap.contains_insert, hcompare]
    rw [List.foldl_cons, ih hrest, hcount, Std.TreeMap.size_insert, List.countP_cons]
    cases map.contains e.1 with
    | true => simp
    | false => simp only [Bool.not_false, Bool.false_eq_true, if_true, if_false]; omega

theorem size_eq_length_keys (d : Dictionary) : d.size = d.merged.keys.length := by
  have hdistinct : d.recorded.toList.Pairwise fun e e' => e.1 ≠ e'.1 := by
    refine Std.TreeMap.distinct_keys_toList.imp fun hne heq => hne ?_
    rw [heq]
    exact Std.ReflCmp.compare_self
  rw [Std.TreeMap.length_keys, merged, Std.TreeMap.foldl_eq_foldl_toList,
    size_foldl_insert hdistinct, size, ← Std.TreeMap.map_fst_toList_eq_keys, List.countP_map]
  rfl

/-! ## Histories -/

/-- What happens to a dictionary: an entry is recorded, or all is saved and loaded again. -/
inductive Change where
  | record (key : String) (name : Option String)
  | reload (origin : String)

def Change.apply (d : Dictionary) : Change → Except Error Dictionary
  | .record key name => .ok (d.record key name)
  | .reload origin => ofJson origin d.toJson

/-- The dictionary after a change if nothing is saved. -/
def Change.keep (d : Dictionary) : Change → Dictionary
  | .record key name => d.record key name
  | .reload _ => d

/-- A change is made to the entries alone, and saving and loading does not change them. -/
theorem Change.entry?_apply (h : ∀ key, d.entry? key = d'.entry? key) (change : Change) :
    ∃ e, change.apply d = .ok e ∧ ∀ key, e.entry? key = entry? (change.keep d') key := by
  cases change with
  | record key name =>
    refine ⟨d.record key name, rfl, fun k => ?_⟩
    rw [keep, entry?_record, entry?_record, h]
  | reload origin =>
    obtain ⟨e, he, hentries⟩ := ofJson_toJson origin d
    exact ⟨e, he, fun key => (hentries key).trans (h key)⟩

theorem entry?_history (h : ∀ key, d.entry? key = d'.entry? key) (changes : List Change) :
    ∃ e, changes.foldlM Change.apply d = .ok e
      ∧ ∀ key, e.entry? key = entry? (changes.foldl Change.keep d') key := by
  induction changes generalizing d d' with
  | nil => exact ⟨d, rfl, h⟩
  | cons change changes ih =>
    obtain ⟨e, he, hentries⟩ := change.entry?_apply h
    obtain ⟨e', he', hentries'⟩ := ih hentries
    refine ⟨e', ?_, hentries'⟩
    rw [List.foldlM_cons, he]
    exact he'

/-- Whatever is recorded and wherever a dictionary is saved and loaded on the way, it answers in the
end as if it had not been; and all answers are read off the merged entries. -/
theorem reloads_change_nothing (d : Dictionary) (changes : List Change) :
    (∃ e, changes.foldlM Change.apply d = .ok e
      ∧ let e' := changes.foldl Change.keep d
        (∀ key, e.lookup? key = e'.lookup? key ∧ e.contains key = e'.contains key)
          ∧ e.merged.toList = e'.merged.toList ∧ e.size = e'.size)
      ∧ d.size = d.merged.keys.length
      ∧ ∀ key, (d.contains key = true ↔ key ∈ d.merged)
        ∧ d.lookup? key = d.merged[key]?.join.filter isIdentifier := by
  obtain ⟨e, he, hentries⟩ := entry?_history (fun _ => rfl) changes
  refine ⟨⟨e, he, fun key => ⟨?_, ?_⟩, toList_merged_congr hentries, ?_⟩, size_eq_length_keys d,
    fun key => ⟨contains_iff_mem_merged d key, ?_⟩⟩
  · rw [lookup?, hentries, ← lookup?]
  · rw [Bool.eq_iff_iff, contains_iff_mem_merged, contains_iff_mem_merged, mem_merged_iff,
      mem_merged_iff, hentries]
  · rw [size_eq_length_keys, size_eq_length_keys, Std.TreeMap.length_keys, Std.TreeMap.length_keys,
      ← Std.TreeMap.length_toList, ← Std.TreeMap.length_toList, toList_merged_congr hentries]
  · rw [lookup?, getElem?_merged]

end Dictionary

end Legible
