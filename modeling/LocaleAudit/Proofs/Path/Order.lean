import LocaleAudit.Proofs.Path

/-!
# LocaleAudit.Proofs.Path.Order

The order of paths, and paths that are put together name by name.

* `less_append_left`, `less_append_self`, `less_of_name` — a directory comes before what is in it,
  and all of it before what has a later name;
* `components_foldl_join`, `foldl_join_eq` — names behind a directory, one after the other.
-/

namespace LocaleAudit.Path

open Place

/-! ## order -/

theorem Component.less_irrefl (c : Component) : c.less c = false := by
  simp [Component.less]

theorem less_irrefl (cs : List Component) : less cs cs = false := by
  induction cs with
  | nil => rfl
  | cons c cs ih => simp [less, c.less_irrefl, ih]

/-- What two paths have in common at the start does not matter for their order. -/
theorem less_append_left (above cs ds : List Component) :
    less (above ++ cs) (above ++ ds) = less cs ds := by
  induction above with
  | nil => rfl
  | cons c above ih => simp [less, c.less_irrefl, ih]

/-- A directory comes before what is in it. -/
theorem less_append_self (cs : List Component) {ds : List Component} (h : ds ≠ []) :
    less cs (cs ++ ds) = true := by
  have hnil : less [] ds = true := by
    cases ds with
    | nil => contradiction
    | cons d ds => rfl
  simpa using (less_append_left cs [] ds).trans hnil

/-- Names decide the order of what is in one directory. -/
theorem less_of_name {m n : String} (h : m < n) (cs ds : List Component) :
    less (.name m :: cs) (.name n :: ds) = true := by
  simp [less, Component.less, Component.rank, Component.text, h]

/-! ## names behind a directory -/

section names

variable {names : List String}

theorem plainName_of_proper {name : String} (h : Entry.ProperName name) : PlainName name where
  noSlash := h.2.2.2
  component := ofPiece_text (.inr ⟨name, rfl, h⟩)

/-- **The components of a path that is put together name by name.** -/
theorem components_foldl_join (hnames : ∀ n ∈ names, PlainName n) (directory : String) :
    components (names.foldl join directory) = components directory ++ names.map .name := by
  induction names generalizing directory with
  | nil => simp
  | cons n names ih =>
      obtain ⟨hn, hnames⟩ := List.forall_mem_cons.1 hnames
      rw [List.foldl_cons, ih hnames, components_join hn, List.append_assoc]
      rfl

/-- What stands in front of a relative path behind a directory. -/
def lead (directory : String) : String :=
  if directory.isEmpty || directory.toList.getLast? = some '/' then directory else directory ++ "/"

theorem join_eq {path : String} (h : isAbsolute path = false) (directory : String) :
    join directory path = lead directory ++ path := by
  rw [join, h, if_neg Bool.false_ne_true, lead]
  split <;> rfl

/-- A path that ends in a name is followed by a slash. -/
theorem lead_join {name : String} (h : Entry.ProperName name) (directory : String) :
    lead (join directory name) = join directory name ++ "/" := by
  have hname : name.toList ≠ [] := fun hnil => h.1 (String.toList_inj.1 hnil)
  have hjoin := join_eq (plainName_of_proper h).isAbsolute_eq_false directory
  have hlast : (join directory name).toList.getLast? ≠ some '/' := by
    rw [hjoin, String.toList_append, List.getLast?_append_of_ne_nil _ hname]
    exact fun hslash => h.2.2.2 (List.mem_of_getLast? hslash)
  have hempty : (join directory name).isEmpty = false := by simp [hjoin, h.1]
  rw [lead, hempty, if_neg (by simp [hlast])]

theorem toList_foldl_join {name : String} (hname : Entry.ProperName name)
    (hnames : ∀ n ∈ names, Entry.ProperName n) (directory : String) :
    ((name :: names).foldl join directory).toList =
      (lead directory).toList ++ (name.toList ++ names.flatMap fun n => '/' :: n.toList) := by
  induction names generalizing name directory with
  | nil => simp [join_eq (plainName_of_proper hname).isAbsolute_eq_false]
  | cons n names ih =>
      obtain ⟨hn, hnames⟩ := List.forall_mem_cons.1 hnames
      rw [List.foldl_cons, ih hn hnames, lead_join hname,
        join_eq (plainName_of_proper hname).isAbsolute_eq_false]
      simp

/-- **A path that is put together name by name** has the names with slashes between them behind the
directory. -/
theorem foldl_join_eq (hnames : ∀ n ∈ names, Entry.ProperName n) (hne : names ≠ [])
    (directory : String) :
    names.foldl join directory = join directory (ofComponents (names.map .name)) := by
  have hproper : ∀ c ∈ names.map Component.name, ProperComponent c := by
    intro c hc
    obtain ⟨n, hn, rfl⟩ := List.mem_map.1 hc
    exact .inr ⟨n, rfl, hnames n hn⟩
  refine String.toList_inj.1 ?_
  rw [join_eq (isAbsolute_ofComponents hproper), String.toList_append,
    toList_ofComponents hproper]
  obtain ⟨n, names, rfl⟩ := List.exists_cons_of_ne_nil hne
  obtain ⟨hn, hrest⟩ := List.forall_mem_cons.1 hnames
  rw [toList_foldl_join hn hrest, List.map_cons, joined_cons, List.flatMap_map]
  rfl

end names

end LocaleAudit.Path
