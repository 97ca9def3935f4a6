import LocaleAudit.Proofs.Key.Set
import LocaleAudit.Rule.Missing

/-!
# LocaleAudit.Proofs.Rule.Missing

Which keys the rule reports as missing.  Each catalog adds one entry for each of its locales, and
the entries of a locale are intersected; the table that the rule builds is described by the list of
the entries alone, whatever their order.

* `accounts_lackingKeys` — what is in the table;
* `missingIssues_eq` — the issues, one by one, and that the order of the catalogs does not matter.
-/

namespace LocaleAudit.Rule

open LocaleAudit.Locale

/-! ## the table of lacking keys -/

/-- A table says of each locale that has an entry which keys are in all of its entries. -/
structure Accounts (entries : List (String × KeySet)) (lacking : LackingKeys) : Prop where
  /-- The locales are in ascending order. -/
  ascending : lacking.Pairwise fun a b => a.1 < b.1
  /-- They are those of the entries. -/
  locales : ∀ l, l ∈ lacking.map (·.1) ↔ l ∈ entries.map (·.1)
  /-- A key is told if all entries of the locale have it. -/
  keys : ∀ l ks, (l, ks) ∈ lacking → ∀ k, k ∈ ks ↔ ∀ e ∈ entries, e.1 = l → k ∈ e.2

theorem mem_locales_lack {locale l : String} {keys : KeySet} {lacking : LackingKeys} :
    l ∈ (lack locale keys lacking).map (·.1) ↔ l = locale ∨ l ∈ lacking.map (·.1) := by
  induction lacking with
  | nil => simp [lack]
  | cons e rest ih =>
      obtain ⟨l', ks⟩ := e
      rw [lack]
      split
      · simp
      · split
        · rename_i heq
          subst heq
          simp
        · rw [List.map_cons, List.mem_cons, ih, List.map_cons, List.mem_cons]
          tauto

theorem pairwise_lack {locale : String} {keys : KeySet} {lacking : LackingKeys}
    (h : lacking.Pairwise fun a b => a.1 < b.1) :
    (lack locale keys lacking).Pairwise fun a b => a.1 < b.1 := by
  induction lacking with
  | nil => simp [lack]
  | cons e rest ih =>
      obtain ⟨l, ks⟩ := e
      obtain ⟨hhead, htail⟩ := List.pairwise_cons.1 h
      rw [lack]
      split
      · rename_i hlt
        refine List.pairwise_cons.2 ⟨fun e he => ?_, h⟩
        rcases List.mem_cons.1 he with rfl | he
        · exact hlt
        · exact String.lt_trans hlt (hhead e he)
      · split
        · exact List.pairwise_cons.2 ⟨hhead, htail⟩
        · rename_i hnlt hne
          refine List.pairwise_cons.2 ⟨fun e he => ?_, ih htail⟩
          have hmem : e.1 ∈ (lack locale keys rest).map (·.1) := List.mem_map_of_mem he
          rcases mem_locales_lack.1 hmem with heq | hrest
          · rw [heq]
            exact Std.lt_of_le_of_ne (String.not_lt.1 hnlt) (Ne.symm hne)
          · obtain ⟨e', he', heq⟩ := List.mem_map.1 hrest
            rw [← heq]
            exact hhead e' he'

/-- What an entry makes of a table: other locales stay, its own gets the keys that it had before
and that are in the entry, or those of the entry if it is new. -/
theorem of_mem_lack {locale l : String} {keys ks : KeySet} {lacking : LackingKeys}
    (h : lacking.Pairwise fun a b => a.1 < b.1) (hmem : (l, ks) ∈ lack locale keys lacking) :
    (l ≠ locale ∧ (l, ks) ∈ lacking) ∨
      (l = locale ∧ ∃ old, (l, old) ∈ lacking ∧ ks = old.filter keys.contains) ∨
      (l = locale ∧ l ∉ lacking.map (·.1) ∧ ks = keys) := by
  induction lacking with
  | nil => simpa [lack] using hmem
  | cons e rest ih =>
      obtain ⟨l', ks'⟩ := e
      obtain ⟨hhead, htail⟩ := List.pairwise_cons.1 h
      have hne_of_mem {m : String} {s : KeySet} (hm : (m, s) ∈ rest) : l' ≠ m := by
        rintro rfl
        exact String.lt_irrefl l' (hhead (l', s) hm)
      rw [lack] at hmem
      split at hmem
      · rename_i hlt
        have hnew : locale ∉ ((l', ks') :: rest).map (·.1) :=
          not_mem_of_lt_head (List.pairwise_map.2 h) hlt
        rcases List.mem_cons.1 hmem with heq | hold
        · obtain ⟨rfl, rfl⟩ := Prod.mk.inj heq
          exact .inr (.inr ⟨rfl, hnew, rfl⟩)
        · refine .inl ⟨fun heq => hnew ?_, hold⟩
          exact heq ▸ List.mem_map_of_mem hold
      · split at hmem
        · rename_i heq
          subst heq
          rcases List.mem_cons.1 hmem with heq | hmem
          · obtain ⟨rfl, rfl⟩ := Prod.mk.inj heq
            exact .inr (.inl ⟨rfl, ks', List.mem_cons_self, rfl⟩)
          · exact .inl ⟨(hne_of_mem hmem).symm, List.mem_cons_of_mem _ hmem⟩
        · rename_i hnlt hne
          rcases List.mem_cons.1 hmem with heq | hmem
          · obtain ⟨rfl, rfl⟩ := Prod.mk.inj heq
            exact .inl ⟨Ne.symm hne, List.mem_cons_self⟩
          · rcases ih htail hmem with ⟨hl, hin⟩ | ⟨hl, old, hin, hks⟩ | ⟨hl, hnot, hks⟩
            · exact .inl ⟨hl, List.mem_cons_of_mem _ hin⟩
            · exact .inr (.inl ⟨hl, old, List.mem_cons_of_mem _ hin, hks⟩)
            · refine .inr (.inr ⟨hl, ?_, hks⟩)
              rw [List.map_cons, List.mem_cons, not_or]
              exact ⟨fun heq => hne (hl ▸ heq), hnot⟩

/-- A table that accounts for some entries accounts for one more after it is taken into it. -/
theorem Accounts.lack {entries : List (String × KeySet)} {lacking : LackingKeys}
    (h : Accounts entries lacking) (locale : String) (keys : KeySet) :
    Accounts (entries ++ [(locale, keys)]) (lack locale keys lacking) where
  ascending := pairwise_lack h.ascending
  locales l := by
    rw [mem_locales_lack, h.locales, List.map_append, List.mem_append, List.map_singleton,
      List.mem_singleton, or_comm]
  keys l ks hmem k := by
    have hsplit : (∀ e ∈ entries ++ [(locale, keys)], e.1 = l → k ∈ e.2) ↔
        (∀ e ∈ entries, e.1 = l → k ∈ e.2) ∧ (locale = l → k ∈ keys) := by
      simp [or_imp, forall_and]
    rw [hsplit]
    rcases of_mem_lack h.ascending hmem with ⟨hne, hin⟩ | ⟨rfl, old, hin, rfl⟩ | ⟨rfl, hnot, rfl⟩
    · rw [h.keys l ks hin]
      exact ⟨fun hk => ⟨hk, fun heq => absurd heq.symm hne⟩, And.left⟩
    · rw [KeySet.mem_filter, KeySet.contains_iff, h.keys l old hin]
      exact ⟨fun ⟨hk, hkeys⟩ => ⟨hk, fun _ => hkeys⟩, fun ⟨hk, hkeys⟩ => ⟨hk, hkeys rfl⟩⟩
    · have hnone : ∀ e ∈ entries, e.1 ≠ l := fun e he heq =>
        hnot ((h.locales l).2 (heq ▸ List.mem_map_of_mem he))
      exact ⟨fun hk => ⟨fun e he heq => absurd heq (hnone e he), fun _ => hk⟩,
        fun hk => hk.2 rfl⟩

/-- What a catalog adds to the table: an entry for each of its locales. -/
def entriesOf (used : KeySet) (c : Catalog) : List (String × KeySet) :=
  c.locales.map fun l =>
    (l, KeySet.ofList (((c.missingKeys used).filter fun f => f.locale = l).map (·.key)))

theorem lackIn_eq_foldl (used : KeySet) (lacking : LackingKeys) (c : Catalog) :
    lackIn used lacking c = (entriesOf used c).foldl (fun t e => lack e.1 e.2 t) lacking := by
  simp [lackIn, entriesOf, List.foldl_map]

theorem accounts_foldl (entries : List (String × KeySet)) {before : List (String × KeySet)}
    {lacking : LackingKeys} (h : Accounts before lacking) :
    Accounts (before ++ entries) (entries.foldl (fun t e => lack e.1 e.2 t) lacking) := by
  induction entries generalizing before lacking with
  | nil => simpa using h
  | cons e rest ih =>
      have hstep := ih (h.lack e.1 e.2)
      rwa [List.append_assoc, List.singleton_append] at hstep

/-- **The table** of all catalogs accounts for the entries of all of them. -/
theorem accounts_lackingKeys (used : KeySet) (catalogs : List Catalog) :
    Accounts (catalogs.flatMap (entriesOf used)) (lackingKeys used catalogs) := by
  have run {before : List (String × KeySet)} {lacking : LackingKeys} (h : Accounts before lacking) :
      Accounts (before ++ catalogs.flatMap (entriesOf used))
        (catalogs.foldl (lackIn used) lacking) := by
    induction catalogs generalizing before lacking with
    | nil => simpa using h
    | cons c cs ih =>
        have hstep := ih (accounts_foldl (entriesOf used c) h)
        rwa [List.append_assoc, ← lackIn_eq_foldl] at hstep
  have hempty : Accounts [] [] := ⟨.nil, by simp, by simp⟩
  simpa [lackingKeys] using run hempty

/-! ## the issues -/

/-- The locales that catalogs provide, in ascending order. -/
def providedLocales (catalogs : List Catalog) : KeySet :=
  KeySet.ofList (catalogs.flatMap (·.locales))

/-- Every catalog that provides a locale reports that it lacks a key there. -/
def AllLack (used : KeySet) (catalogs : List Catalog) (locale key : String) : Prop :=
  ∀ c ∈ catalogs, locale ∈ c.locales → ∃ f ∈ c.missingKeys used, f.locale = locale ∧ f.key = key

instance (used : KeySet) (catalogs : List Catalog) (locale key : String) :
    Decidable (AllLack used catalogs locale key) :=
  inferInstanceAs (Decidable (∀ c ∈ catalogs, locale ∈ c.locales → _))

theorem mem_providedLocales {catalogs : List Catalog} {l : String} :
    l ∈ providedLocales catalogs ↔ ∃ c ∈ catalogs, l ∈ c.locales := by
  simp [providedLocales]

theorem map_fst_lackingKeys (used : KeySet) (catalogs : List Catalog) :
    (lackingKeys used catalogs).map (·.1) = (providedLocales catalogs).toList := by
  have h := accounts_lackingKeys used catalogs
  refine eq_of_ascending (List.pairwise_map.2 h.ascending) (providedLocales catalogs).sorted
    fun l => ?_
  rw [h.locales l, ← KeySet.mem_iff, mem_providedLocales]
  simp [entriesOf]

/-- A key in the table is one that all catalogs of the locale lack. -/
theorem contains_lackingKeys {used : KeySet} {catalogs : List Catalog} {l key : String}
    {ks : KeySet} (hmem : (l, ks) ∈ lackingKeys used catalogs) :
    ks.contains key = decide (AllLack used catalogs l key) := by
  rw [Bool.eq_iff_iff, KeySet.contains_iff, decide_eq_true_iff,
    (accounts_lackingKeys used catalogs).keys l ks hmem, AllLack]
  constructor
  · intro h c hc hl
    have hkey := h _ (List.mem_flatMap.2 ⟨c, hc, List.mem_map_of_mem hl⟩) rfl
    obtain ⟨f, hf, rfl⟩ := List.mem_map.1 (KeySet.mem_ofList.1 hkey)
    obtain ⟨hin, hloc⟩ := List.mem_filter.1 hf
    exact ⟨f, hin, of_decide_eq_true hloc, rfl⟩
  · intro h e he heq
    obtain ⟨c, hc, hin⟩ := List.mem_flatMap.1 he
    obtain ⟨l', hl', rfl⟩ := List.mem_map.1 hin
    subst heq
    obtain ⟨f, hf, hloc, hkey⟩ := h c hc hl'
    simpa using ⟨f, ⟨hf, hloc⟩, hkey⟩

/-- The issues in terms of the catalogs. -/
theorem missingIssues_eq_flatMap (used : UsedKeys) (catalogs : List Catalog) :
    missingIssues used catalogs =
      used.usages.flatMap fun u =>
        ((providedLocales catalogs).toList.filter fun l =>
          decide (AllLack used.keys catalogs l u.key)).map fun l =>
            .missingKey u.context u.key l := by
  rw [missingIssues]
  refine List.flatMap_congr fun u _ => ?_
  rw [← map_fst_lackingKeys used.keys, List.filter_map, List.map_map]
  congr 1
  refine List.filter_congr fun e he => ?_
  exact contains_lackingKeys he

theorem providedLocales_perm {cs ds : List Catalog} (h : cs.Perm ds) :
    providedLocales cs = providedLocales ds := by
  refine KeySet.eq_of_mem_iff fun l => ?_
  rw [mem_providedLocales, mem_providedLocales]
  simp only [h.mem_iff]

theorem allLack_perm {used : KeySet} {cs ds : List Catalog} (h : cs.Perm ds) {locale key : String} :
    AllLack used cs locale key ↔ AllLack used ds locale key := by
  simp only [AllLack, h.mem_iff]

theorem missingIssues_perm (used : UsedKeys) {cs ds : List Catalog} (h : cs.Perm ds) :
    missingIssues used cs = missingIssues used ds := by
  rw [missingIssues_eq_flatMap, missingIssues_eq_flatMap, providedLocales_perm h]
  simp only [allLack_perm h]

/-- **The missing keys**: for each usage in order, and then each locale in ascending order that
some catalog provides, one issue if all catalogs that provide the locale report the key, and no
other issue.  The order of the catalogs does not matter. -/
theorem missingIssues_eq (used : UsedKeys) (catalogs : List Catalog) :
    missingIssues used catalogs =
      used.usages.flatMap (fun u =>
        ((providedLocales catalogs).toList.filter fun l =>
          decide (AllLack used.keys catalogs l u.key)).map fun l =>
            .missingKey u.context u.key l) ∧
    ∀ catalogs', catalogs'.Perm catalogs →
      missingIssues used catalogs' = missingIssues used catalogs :=
  ⟨missingIssues_eq_flatMap used catalogs, fun _ h => missingIssues_perm used h⟩

/-- One of two files of the locale `en`. -/
def homeCatalog : Catalog :=
  ⟨"home/en.json", "home/en.json", .file, "\x7b\"a\":1\x7d".toList, _, rfl⟩

/-- The other one. -/
def aboutCatalog : Catalog :=
  ⟨"about/en.json", "about/en.json", .file, "\x7b\"b\":1\x7d".toList, _, rfl⟩

/-- A key of one of the two files is not missing, whichever file comes first. -/
theorem missingIssues_swap :
    [aboutCatalog, homeCatalog].Perm [homeCatalog, aboutCatalog] ∧
      missingIssues (.ofUsages [⟨"a", default⟩, ⟨"c", default⟩]) [aboutCatalog, homeCatalog] =
        [.missingKey default "c" "en"] := by
  have hperm := List.Perm.swap homeCatalog aboutCatalog []
  refine ⟨hperm, ?_⟩
  rw [(missingIssues_eq _ [homeCatalog, aboutCatalog]).2 _ hperm]
  decide +kernel

end LocaleAudit.Rule
