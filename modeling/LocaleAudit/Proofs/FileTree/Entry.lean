import LocaleAudit.FileTree

/-!
# LocaleAudit.Proofs.FileTree.Entry

Entries of a tree, and what writing and removing does to them.

* `at?_write` — what has been written is there;
* `remove_write` — to remove a file it does not matter what is in it;
* `at?_remove`, `rel_at?_remove` — what is there when a file has been removed.
-/

namespace LocaleAudit.Entry

/-! ## directories -/

section put

variable {name m : String} {e old : Entry} {es : List (String × Entry)}

theorem lookup_put_self : (put name e es).lookup name = some e := by
  induction es with
  | nil => simp [put]
  | cons head es ih =>
      obtain ⟨n, old⟩ := head
      rw [put]
      split
      · simp
      · split
        · rename_i heq
          simp [heq]
        · rename_i hne
          rw [List.lookup_cons, beq_false_of_ne hne, ih]

theorem lookup_put_of_ne (h : m ≠ name) : (put name e es).lookup m = es.lookup m := by
  induction es with
  | nil => simp [put, h]
  | cons head es ih =>
      obtain ⟨n, old⟩ := head
      rw [put]
      split
      · rw [List.lookup_cons, beq_false_of_ne h]
      · split
        · rename_i heq
          rw [List.lookup_cons, List.lookup_cons, ← heq, beq_false_of_ne h]
        · rw [List.lookup_cons, List.lookup_cons, ih]

theorem put_put : put name e (put name old es) = put name e es := by
  induction es with
  | nil => simp only [put, String.lt_irrefl, if_false, if_true]
  | cons head es ih =>
      obtain ⟨n, first⟩ := head
      rw [put]
      split
      · rename_i hlt
        rw [put, if_neg (String.lt_irrefl name), if_pos rfl, put, if_pos hlt]
      · rename_i hnlt
        split
        · rename_i heq
          rw [put, if_neg hnlt, if_pos heq, put, if_neg hnlt, if_pos heq]
        · rename_i hne
          rw [put, if_neg hnlt, if_neg hne, ih, put, if_neg hnlt, if_neg hne]

theorem filter_put :
    (put name e es).filter (fun (n, _) => n ≠ name) = es.filter fun (n, _) => n ≠ name := by
  induction es with
  | nil => simp [put]
  | cons head es ih =>
      obtain ⟨n, old⟩ := head
      rw [put]
      split
      · simp
      · split
        · rename_i heq
          simp [heq]
        · rw [List.filter_cons, List.filter_cons, ih]

theorem lookup_filter_of_ne (h : m ≠ name) :
    (es.filter fun (n, _) => n ≠ name).lookup m = es.lookup m := by
  induction es with
  | nil => rfl
  | cons head es ih =>
      obtain ⟨n, old⟩ := head
      by_cases hn : n = name
      · subst hn
        simp only [ne_eq, decide_not] at ih
        simp [List.lookup_cons, beq_false_of_ne h, ih]
      · simp only [ne_eq, decide_not] at ih
        simp [hn, List.lookup_cons, ih]

theorem lookup_filter_self : (es.filter fun (n, _) => n ≠ name).lookup name = none := by
  rw [List.lookup_eq_none_iff]
  intro m hm
  have hne : m.1 ≠ name := of_decide_eq_true (List.mem_filter.1 hm).2
  exact bne_iff_ne.2 hne.symm

/-- An entry that takes the place of another one leaves the names as they are. -/
theorem map_fst_put (h : es.Pairwise fun a b => a.1 < b.1) (hname : name ∈ es.map (·.1)) :
    (put name e es).map (·.1) = es.map (·.1) := by
  induction es with
  | nil => contradiction
  | cons head es ih =>
      obtain ⟨n, old⟩ := head
      obtain ⟨hhead, htail⟩ := List.pairwise_cons.1 h
      rw [put]
      split
      · rename_i hlt
        rcases List.mem_cons.1 hname with rfl | hin
        · exact absurd hlt (String.lt_irrefl _)
        · obtain ⟨m, hm, rfl⟩ := List.mem_map.1 hin
          exact absurd (String.lt_trans hlt (hhead m hm)) (String.lt_irrefl _)
      · split
        · rfl
        · rename_i hne
          rcases List.mem_cons.1 hname with heq | hin
          · exact absurd heq hne
          · rw [List.map_cons, List.map_cons, ih htail hin]

theorem mem_put {a : String × Entry} (h : a ∈ put name e es) : a = (name, e) ∨ a ∈ es := by
  induction es with
  | nil => exact .inl (List.mem_singleton.1 h)
  | cons head es ih =>
      obtain ⟨n, old⟩ := head
      rw [put] at h
      split at h
      · exact (List.mem_cons.1 h)
      · split at h
        · rename_i heq
          subst heq
          exact (List.mem_cons.1 h).imp_right (List.mem_cons_of_mem _)
        · rcases List.mem_cons.1 h with rfl | h
          · exact .inr List.mem_cons_self
          · exact (ih h).imp_right (List.mem_cons_of_mem _)

theorem pairwise_put (h : es.Pairwise fun a b => a.1 < b.1) :
    (put name e es).Pairwise fun a b => a.1 < b.1 := by
  induction es with
  | nil => exact List.pairwise_singleton _ _
  | cons head es ih =>
      obtain ⟨n, old⟩ := head
      obtain ⟨hhead, htail⟩ := List.pairwise_cons.1 h
      rw [put]
      split
      · rename_i hlt
        refine List.pairwise_cons.2 ⟨fun a ha => ?_, h⟩
        rcases List.mem_cons.1 ha with rfl | ha
        · exact hlt
        · exact String.lt_trans hlt (hhead a ha)
      · split
        · exact List.pairwise_cons.2 ⟨hhead, htail⟩
        · rename_i hnlt hne
          refine List.pairwise_cons.2 ⟨fun a ha => ?_, ih htail⟩
          rcases mem_put ha with rfl | ha
          · exact Std.lt_of_le_of_ne (String.not_lt.1 hnlt) (Ne.symm hne)
          · exact hhead a ha

/-- Entries are told apart by their names. -/
theorem lookup_of_mem (h : es.Pairwise fun a b => a.1 < b.1) (hmem : (name, e) ∈ es) :
    es.lookup name = some e := by
  induction h with
  | nil => contradiction
  | @cons head es hhead _ ih =>
      rcases List.mem_cons.1 hmem with rfl | hmem
      · exact List.lookup_cons_self
      · have hne : name ≠ head.1 := fun heq =>
          String.lt_irrefl name (by simpa [← heq] using hhead _ hmem)
        rw [List.lookup_cons, beq_false_of_ne hne]
        exact ih hmem

end put

/-! ## induction -/

mutual

/-- Induction over the entries of directories. -/
@[elab_as_elim]
theorem member_induction {motive : Entry → Prop}
    (step : ∀ e, (∀ m ∈ e.entries, motive m.2) → motive e) (e : Entry) : motive e := by
  cases e with
  | file content => exact step _ fun _ hm => nomatch hm
  | directory es => exact step _ (memberList_induction step es)

theorem memberList_induction {motive : Entry → Prop}
    (step : ∀ e, (∀ m ∈ e.entries, motive m.2) → motive e) (es : List (String × Entry)) :
    ∀ m ∈ es, motive m.2 := by
  cases es with
  | nil => exact fun _ hm => nomatch hm
  | cons m es =>
      exact List.forall_mem_cons.2 ⟨member_induction step m.2, memberList_induction step es⟩

end

/-! ## places in a tree -/

/-- The entry that the names lead to. -/
def at? : List String → Entry → Option Entry
  | [], e => some e
  | name :: names, e => (e.child? name).bind (at? names)

/-- The text is a name that a file can have. -/
def ProperName (name : String) : Prop :=
  name ≠ "" ∧ name ≠ "." ∧ name ≠ ".." ∧ '/' ∉ name.toList

instance (name : String) : Decidable (ProperName name) := inferInstanceAs (Decidable (_ ∧ _))

/-- The entries of all directories are in ascending order of their names, and these are names that
files can have. -/
inductive Proper : Entry → Prop
  | file (content : Content) : Proper (.file content)
  | directory {es : List (String × Entry)} (ascending : es.Pairwise fun a b => a.1 < b.1)
      (names : ∀ m ∈ es, ProperName m.1) (entries : ∀ m ∈ es, m.2.Proper) : Proper (.directory es)

variable {name : String} {names : List String} {e new t : Entry} {content : Content}

theorem at?_cons : at? (name :: names) e = (e.child? name).bind (at? names) := rfl

theorem at?_append {more : List String} :
    at? (names ++ more) e = (at? names e).bind (at? more) := by
  induction names generalizing e with
  | nil => rfl
  | cons name names ih =>
      rw [List.cons_append, at?_cons, at?_cons, Option.bind_assoc]
      exact Option.bind_congr fun e _ => ih

theorem at?_concat : at? (names ++ [name]) e = (at? names e).bind (child? name) := by
  rw [at?_append]
  refine Option.bind_congr fun e _ => ?_
  rw [at?_cons]
  cases e.child? name <;> rfl

theorem at?_file (h : names ≠ []) : at? names (.file content) = none := by
  cases names with
  | nil => contradiction
  | cons name names => rfl

theorem exists_directory_of_child? (h : t.child? name = some e) : ∃ es, t = .directory es := by
  cases t with
  | file c => contradiction
  | directory es => exact ⟨es, rfl⟩

theorem isSome_child?_iff : (e.child? name).isSome ↔ name ∈ e.entries.map (·.1) := by
  rw [child?]
  induction e.entries with
  | nil => simp
  | cons head es ih =>
      rw [List.lookup_cons, List.map_cons, List.mem_cons]
      split
      · rename_i heq
        simp [eq_of_beq heq]
      · rename_i hne
        rw [ih, or_iff_right (ne_of_beq_false hne)]

theorem mem_of_child? {es : List (String × Entry)} (h : child? name (.directory es) = some e) :
    (name, e) ∈ es := by
  rw [child?, entries] at h
  induction es with
  | nil => contradiction
  | cons head es ih =>
      obtain ⟨n, first⟩ := head
      rw [List.lookup_cons] at h
      split at h
      · rename_i heq
        obtain rfl := Option.some.inj h
        obtain rfl := eq_of_beq heq
        exact List.mem_cons_self
      · exact List.mem_cons_of_mem _ (ih h)

theorem Proper.child?_of_mem (h : t.Proper) (hmem : (name, e) ∈ t.entries) :
    t.child? name = some e := by
  cases h with
  | file => contradiction
  | directory hascending => exact lookup_of_mem hascending hmem

theorem Proper.child? (h : t.Proper) (hchild : t.child? name = some e) : e.Proper := by
  cases h with
  | file => contradiction
  | directory _ _ hentries => exact hentries _ (mem_of_child? hchild)

theorem Proper.properName (h : t.Proper) (hchild : t.child? name = some e) : ProperName name := by
  cases h with
  | file => contradiction
  | directory _ hnames _ => exact hnames _ (mem_of_child? hchild)

theorem Proper.at? (h : t.Proper) (hat : t.at? names = some e) : e.Proper := by
  induction names generalizing t with
  | nil => exact Option.some.inj hat ▸ h
  | cons name names ih =>
      obtain ⟨inner, hchild, hat⟩ := Option.bind_eq_some_iff.1 hat
      exact ih (h.child? hchild) hat

/-! ## writing -/

/-- **What has been written is there.** -/
theorem at?_write : (write new names e).at? names = some new := by
  induction names generalizing e with
  | nil => rfl
  | cons name names ih =>
      rw [write, at?_cons, child?, entries, lookup_put_self]
      exact ih

theorem write_cons {es : List (String × Entry)} (hchild : child? name (directory es) = some e) :
    write new (name :: names) (directory es) = directory (put name (write new names e) es) := by
  rw [write, hchild, Option.getD_some, entries]

/-- An entry may take the place of another one. -/
theorem proper_put {es : List (String × Entry)} (hascending : es.Pairwise fun a b => a.1 < b.1)
    (hnames : ∀ m ∈ es, ProperName m.1) (hentries : ∀ m ∈ es, m.2.Proper) (hmem : (name, e) ∈ es)
    (hnew : new.Proper) : (directory (put name new es)).Proper := by
  refine .directory (pairwise_put hascending) (fun m hm => ?_) fun m hm => ?_
  · rcases mem_put hm with rfl | hm
    · exact hnames (name, e) hmem
    · exact hnames m hm
  · rcases mem_put hm with rfl | hm
    · exact hnew
    · exact hentries m hm

/-- A file may be written over another one. -/
theorem Proper.write (h : t.Proper) (hnew : new.Proper) (hat : t.at? names = some e) :
    (write new names t).Proper := by
  induction names generalizing t with
  | nil => exact hnew
  | cons name names ih =>
      obtain ⟨inner, hchild, hinner⟩ := Option.bind_eq_some_iff.1 hat
      have hwritten := ih (h.child? hchild) hinner
      obtain ⟨es, rfl⟩ := exists_directory_of_child? hchild
      rw [write_cons hchild]
      cases h with
      | directory hascending hnames hentries =>
          exact proper_put hascending hnames hentries (mem_of_child? hchild) hwritten

/-! ## removing -/

theorem remove_singleton {es : List (String × Entry)} :
    remove [name] (directory es) = directory (es.filter fun (n, _) => n ≠ name) := rfl

theorem remove_cons {es : List (String × Entry)} (hnames : names ≠ [])
    (hchild : child? name (directory es) = some e) :
    remove (name :: names) (directory es) = directory (put name (remove names e) es) := by
  cases names with
  | nil => contradiction
  | cons next names =>
      rw [remove, hchild]
      · rfl
      · exact List.cons_ne_nil _ _

/-- **What is in a file** does not matter when it is removed. -/
theorem remove_write (hnames : names ≠ []) (hat : t.at? names = some e) :
    remove names (write new names t) = remove names t := by
  induction names generalizing t with
  | nil => contradiction
  | cons name names ih =>
      obtain ⟨inner, hchild, hinner⟩ := Option.bind_eq_some_iff.1 hat
      obtain ⟨es, rfl⟩ := exists_directory_of_child? hchild
      rw [write_cons hchild]
      by_cases hlast : names = []
      · subst hlast
        rw [remove_singleton, remove_singleton, filter_put]
      · have hwritten : child? name (directory (put name (write new names inner) es)) =
            some (write new names inner) := lookup_put_self
        rw [remove_cons hlast hwritten, remove_cons hlast hchild, ih hlast hinner, put_put]

/-- A file is removed from a tree. -/
structure Removal (t : Entry) (names : List String) : Prop where
  /-- The tree is a proper one. -/
  proper : t.Proper
  /-- The file is not the tree itself. -/
  names_ne_nil : names ≠ []
  /-- The file is there. -/
  file : ∃ content, t.at? names = some (.file content)

/-- What becomes of an entry when the entry at a place below it is removed, or one elsewhere: a file
stays as it is, and a directory keeps all names but the one of that place. -/
structure Thinned (above gone : List String) (e e' : Entry) : Prop where
  /-- What is in a file. -/
  content : e'.content? = e.content?
  /-- The names in a directory. -/
  names : e'.entries.map (·.1) = (e.entries.map (·.1)).filter fun name => above ++ [name] ≠ gone

theorem isDirectory_eq (e : Entry) : e.isDirectory = e.content?.isNone := by
  cases e <;> rfl

theorem Thinned.isDirectory {above gone : List String} {e' : Entry} (h : Thinned above gone e e') :
    e'.isDirectory = e.isDirectory := by
  rw [isDirectory_eq, isDirectory_eq, h.content]

theorem Thinned.refl {above gone : List String} (h : ∀ name, above ++ [name] ≠ gone) :
    Thinned above gone e e where
  content := rfl
  names := (List.filter_eq_self.2 fun name _ => decide_eq_true (h name)).symm

theorem Thinned.cons {above gone : List String} {e' : Entry} (h : Thinned above gone e e')
    (name : String) : Thinned (name :: above) (name :: gone) e e' where
  content := h.content
  names := by
    rw [h.names]
    refine List.filter_congr fun n _ => ?_
    rw [List.cons_append, decide_eq_decide, ne_eq, ne_eq, List.cons.injEq]
    simp

theorem rel_refl {above gone : List String} (h : ∀ name, above ++ [name] ≠ gone)
    (found : Option Entry) : Option.Rel (Thinned above gone) found found := by
  cases found with
  | none => exact .none
  | some e => exact .some (.refl h)

theorem rel_cons {above gone : List String} (name : String) {found found' : Option Entry}
    (h : Option.Rel (Thinned above gone) found found') :
    Option.Rel (Thinned (name :: above) (name :: gone)) found found' := by
  cases h with
  | none => exact .none
  | some h => exact .some (h.cons name)

theorem Removal.tail (h : Removal t (name :: names)) (hnames : names ≠ []) {inner : Entry}
    (hchild : t.child? name = some inner) : Removal inner names := by
  obtain ⟨content, hfile⟩ := h.file
  rw [at?_cons, hchild] at hfile
  exact ⟨h.proper.child? hchild, hnames, content, hfile⟩

theorem Removal.exists_child? (h : Removal t (name :: names)) :
    ∃ es inner content, t = directory es ∧ es.Pairwise (fun a b => a.1 < b.1) ∧
      child? name t = some inner ∧ at? names inner = some (.file content) := by
  obtain ⟨content, hfile⟩ := h.file
  obtain ⟨inner, hchild, hinner⟩ := Option.bind_eq_some_iff.1 hfile
  cases h.proper with
  | file => contradiction
  | directory hascending => exact ⟨_, inner, content, rfl, hascending, hchild, hinner⟩

/-- A tree without the file is proper as well. -/
theorem Removal.proper_remove (h : Removal t names) : (remove names t).Proper := by
  induction names generalizing t with
  | nil => exact absurd rfl h.names_ne_nil
  | cons name names ih =>
      obtain ⟨es, inner, content, rfl, -, hchild, -⟩ := h.exists_child?
      cases h.proper with
      | directory hascending hnames hentries =>
          by_cases hlast : names = []
          · subst hlast
            rw [remove_singleton]
            exact .directory (hascending.filter _) (fun m hm => hnames m (List.mem_filter.1 hm).1)
              fun m hm => hentries m (List.mem_filter.1 hm).1
          · rw [remove_cons hlast hchild]
            exact proper_put hascending hnames hentries (mem_of_child? hchild)
              (ih (h.tail hlast hchild))

/-- **The file is not there** any more. -/
theorem at?_remove (h : Removal t names) : (remove names t).at? names = none := by
  induction names generalizing t with
  | nil => exact absurd rfl h.names_ne_nil
  | cons name names ih =>
      obtain ⟨es, inner, content, rfl, -, hchild, -⟩ := h.exists_child?
      by_cases hlast : names = []
      · subst hlast
        rw [remove_singleton, at?_cons, child?, entries, lookup_filter_self]
        rfl
      · rw [remove_cons hlast hchild, at?_cons, child?, entries, lookup_put_self]
        exact ih (h.tail hlast hchild)

/-- **All else is there**, and only the directory of the file has one name less. -/
theorem rel_at?_remove (h : Removal t names) {others : List String} (hothers : others ≠ names) :
    Option.Rel (Thinned others names) (t.at? others) ((remove names t).at? others) := by
  induction names generalizing t others with
  | nil => exact absurd rfl h.names_ne_nil
  | cons name names ih =>
      obtain ⟨es, inner, content, rfl, hascending, hchild, hfile⟩ := h.exists_child?
      have hname : name ∈ es.map (·.1) := List.mem_map_of_mem (mem_of_child? hchild)
      by_cases hlast : names = []
      · subst hlast
        rw [remove_singleton]
        cases others with
        | nil =>
            refine .some ⟨rfl, ?_⟩
            simp [entries, List.filter_map, Function.comp_def]
        | cons other others =>
            by_cases hsame : other = name
            · -- nothing is below a file
              subst hsame
              have hbelow : others ≠ [] := fun heq => hothers (by rw [heq])
              obtain rfl := Option.some.inj hfile
              rw [at?_cons, at?_cons, hchild, child?, entries, lookup_filter_self, Option.bind_some,
                at?_file hbelow]
              exact .none
            · rw [at?_cons, at?_cons, child?, child?, entries, entries, lookup_filter_of_ne hsame]
              exact rel_refl (fun n heq => hsame (List.cons.inj heq).1) _
      · rw [remove_cons hlast hchild]
        cases others with
        | nil =>
            refine .some ⟨rfl, ?_⟩
            rw [entries, entries, map_fst_put hascending hname]
            have hkept (n : String) : [] ++ [n] ≠ name :: names := fun heq =>
              hlast (List.cons.inj heq).2.symm
            exact (List.filter_eq_self.2 fun n _ => decide_eq_true (hkept n)).symm
        | cons other others =>
            rw [at?_cons, at?_cons, child?, child?, entries, entries]
            by_cases hsame : other = name
            · subst hsame
              have hothers' : others ≠ names := fun heq => hothers (by rw [heq])
              rw [lookup_put_self, show es.lookup other = some inner from hchild]
              exact rel_cons other (ih (h.tail hlast hchild) hothers')
            · rw [lookup_put_of_ne hsame]
              exact rel_refl (fun n heq => hsame (List.cons.inj heq).1) _

end LocaleAudit.Entry
