import LocaleAudit.Proofs.FileTree.Place
import LocaleAudit.Proofs.Text.Pieces

/-!
# LocaleAudit.Proofs.Path

Paths as texts.  The texts between the slashes of a path are those that have been put together, so
that the places of a tree are told apart by the texts of their paths.

* `components_join` — a name behind a directory is the last component;
* `Place.components_ofComponents` — the components of a path that has been put together;
* `Place.eq_of_pathText` — places with one path are one place;
* `steps_join`, `resolve_eq`, `pieces_resolve` — paths behind a root.
-/

namespace LocaleAudit

open LocaleAudit.Path

/-! ## the pieces of a path -/

namespace Path

open Text

/-- The components that the pieces between the slashes of a path stand for. -/
def ofPieces : List (List Char) → List Component
  | [] => []
  | first :: rest =>
    (if first = [] ∧ rest ≠ [] then [.root]
     else if first = ['.'] then [.current]
     else Component.ofPiece first) ++ rest.flatMap Component.ofPiece

theorem isAbsolute_iff {path : String} {first : List Char} {rest : List (List Char)}
    (h : pieces '/' path.toList = first :: rest) :
    isAbsolute path = true ↔ first = [] ∧ rest ≠ [] := by
  rw [isAbsolute, decide_eq_true_iff]
  cases htext : path.toList with
  | nil =>
      rw [htext] at h
      obtain ⟨rfl, rfl⟩ := List.cons.inj h
      simp
  | cons c cs =>
      rw [htext] at h
      by_cases hc : c = '/'
      · rw [pieces, if_pos hc] at h
        obtain ⟨rfl, rfl⟩ := List.cons.inj h
        simp [hc, pieces_ne_nil]
      · obtain ⟨piece, rest', hpieces⟩ := pieces_eq_cons_cons hc cs
        obtain ⟨rfl, rfl⟩ := List.cons.inj (hpieces.symm.trans h)
        simp [hc]

/-- What a path means depends on the pieces between its slashes. -/
theorem components_eq (path : String) : components path = ofPieces (pieces '/' path.toList) := by
  rw [components]
  cases h : pieces '/' path.toList with
  | nil => rfl
  | cons first rest =>
      dsimp only [ofPieces]
      simp only [isAbsolute_iff h]

/-- One more piece, where there is a slash in front of it. -/
theorem ofPieces_concat {ps : List (List Char)} (h : ps ≠ []) (piece : List Char) :
    ofPieces (ps ++ [piece]) = ofPieces (ps ++ [[]]) ++ Component.ofPiece piece := by
  cases ps with
  | nil => contradiction
  | cons first rest => simp [ofPieces, Component.ofPiece]

/-- A slash at the end means nothing, unless it is all there is. -/
theorem ofPieces_concat_nil {ps : List (List Char)} (h : ps ≠ []) (hempty : ps ≠ [[]]) :
    ofPieces (ps ++ [[]]) = ofPieces ps := by
  cases ps with
  | nil => contradiction
  | cons first rest =>
      have hroot : first = [] → rest ≠ [] := fun hfirst hrest => hempty (by rw [hfirst, hrest])
      have hiff : (first = [] ∧ rest ++ [[]] ≠ []) ↔ (first = [] ∧ rest ≠ []) :=
        and_congr_right fun hfirst => iff_of_true (by simp) (hroot hfirst)
      rw [List.cons_append, ofPieces, ofPieces]
      simp only [hiff, List.flatMap_append, List.flatMap_singleton, Component.ofPiece,
        List.append_nil]

end Path

/-! ## joined paths -/

namespace Path

open Text

/-- A name that is the only piece of a path, and a component of its own. -/
structure PlainName (name : String) : Prop where
  /-- There are no slashes in it. -/
  noSlash : '/' ∉ name.toList
  /-- It stands for itself. -/
  component : Component.ofPiece name.toList = [.name name]

instance (name : String) : Decidable (PlainName name) :=
  decidable_of_iff ('/' ∉ name.toList ∧ Component.ofPiece name.toList = [.name name])
    ⟨fun h => ⟨h.1, h.2⟩, fun h => ⟨h.noSlash, h.component⟩⟩

theorem PlainName.isAbsolute_eq_false {name : String} (h : PlainName name) :
    isAbsolute name = false := by
  refine decide_eq_false fun hhead => h.noSlash ?_
  exact List.mem_of_mem_head? hhead

theorem components_of_plain {name : String} (h : PlainName name) :
    components name = [.name name] := by
  have hcurrent : name.toList ≠ ['.'] := fun heq => by
    have hcomponent := h.component
    rw [heq] at hcomponent
    contradiction
  rw [components, Text.pieces_of_not_mem h.noSlash]
  dsimp only
  rw [h.isAbsolute_eq_false, if_neg Bool.false_ne_true, if_neg hcurrent, h.component]
  rfl

/-- **A name behind a directory** is one more component. -/
theorem components_join {name : String} (h : PlainName name) (directory : String) :
    components (join directory name) = components directory ++ [.name name] := by
  rw [join, h.isAbsolute_eq_false, if_neg Bool.false_ne_true, components_eq, components_eq]
  split
  · rename_i hend
    rw [Bool.or_eq_true, decide_eq_true_iff] at hend
    rcases hend with hempty | hslash
    · rw [String.isEmpty_iff.1 hempty, String.empty_append, ← components_eq, components_of_plain h]
      rfl
    · obtain ⟨above, habove⟩ := List.getLast?_eq_some_iff.1 hslash
      have hdirectory : pieces '/' directory.toList = pieces '/' above ++ [[]] := by
        rw [habove, pieces_append]
        rfl
      rw [hdirectory, ← h.component, ← ofPieces_concat (pieces_ne_nil '/' above),
        String.toList_append, habove, List.append_assoc, List.singleton_append, pieces_append,
        pieces_of_not_mem h.noSlash]
  · rename_i hend
    have hne : pieces '/' directory.toList ≠ [[]] := fun hpieces =>
      hend (by simp [String.toList_eq_nil_iff.1 (eq_nil_of_pieces hpieces)])
    rw [← ofPieces_concat_nil (pieces_ne_nil '/' directory.toList) hne, ← h.component,
      ← ofPieces_concat (pieces_ne_nil '/' directory.toList), String.toList_append,
      String.toList_append, List.append_assoc, ← pieces_of_not_mem h.noSlash, ← pieces_append]
    rfl

end Path

/-! ## places -/

namespace Place

/-- A component that a place of a tree can have in its path. -/
def ProperComponent (c : Component) : Prop :=
  c = .parent ∨ ∃ name, c = .name name ∧ Entry.ProperName name

theorem properComponent_of_walk {tree : Entry} {path : List Component} {p : Place}
    (htree : tree.Proper) (h : walk tree path = some p) : ∀ c ∈ p.path, ProperComponent c := by
  induction path using List.reverseRecOn generalizing p with
  | nil =>
      obtain rfl := Option.some.inj h
      exact fun _ hc => nomatch hc
  | append_singleton path c ih =>
      rw [walk_concat] at h
      obtain ⟨q, hq, hstep⟩ := Option.bind_eq_some_iff.1 h
      cases step_of_step? hstep with
      | current => exact ih hq
      | parent => exact List.forall_mem_append.2 ⟨ih hq, List.forall_mem_singleton.2 (.inl rfl)⟩
      | @name n e he =>
          have hname := ((Stands.of_walk hq).entry_proper htree).properName he
          exact List.forall_mem_append.2
            ⟨ih hq, List.forall_mem_singleton.2 (.inr ⟨n, rfl, hname⟩)⟩

theorem not_mem_text {c : Component} (h : ProperComponent c) : '/' ∉ c.text.toList := by
  rcases h with rfl | ⟨name, rfl, -, -, -, hslash⟩
  · decide
  · exact hslash

theorem text_ne_empty {c : Component} (h : ProperComponent c) : c.text.toList ≠ [] := by
  rcases h with rfl | ⟨name, rfl, hempty, -, -, -⟩
  · decide
  · exact fun heq => hempty (String.toList_inj.1 heq)

theorem text_inj {c d : Component} (hc : ProperComponent c) (hd : ProperComponent d)
    (h : c.text.toList = d.text.toList) : c = d := by
  have htext := String.toList_inj.1 h
  rcases hc with rfl | ⟨name, rfl, -, -, hname, -⟩
  · rcases hd with rfl | ⟨name', rfl, -, -, hname', -⟩
    · rfl
    · exact absurd htext.symm hname'
  · rcases hd with rfl | ⟨name', rfl, -, -, -, -⟩
    · exact absurd htext hname
    · exact congrArg Component.name htext

theorem map_text_inj {cs ds : List Component} (hcs : ∀ c ∈ cs, ProperComponent c)
    (hds : ∀ d ∈ ds, ProperComponent d)
    (h : (cs.map fun c => c.text.toList) = ds.map fun d => d.text.toList) : cs = ds := by
  induction cs generalizing ds with
  | nil => exact (List.map_eq_nil_iff.1 h.symm).symm
  | cons c cs ih =>
      cases ds with
      | nil => contradiction
      | cons d ds =>
          obtain ⟨hc, hcs⟩ := List.forall_mem_cons.1 hcs
          obtain ⟨hd, hds⟩ := List.forall_mem_cons.1 hds
          obtain ⟨htext, hrest⟩ := List.cons.inj h
          rw [text_inj hc hd htext, ih hcs hds hrest]

/-- The texts between the slashes of a path. -/
theorem pieces_joined {cs : List Component} (h : ∀ c ∈ cs, ProperComponent c) :
    (Text.pieces '/' (joined cs)).filter (· ≠ []) = cs.map fun c => c.text.toList := by
  cases cs with
  | nil => rfl
  | cons c cs =>
      rw [joined, Text.pieces_intercalate (by simp)]
      · refine List.filter_eq_self.2 fun text htext => ?_
        obtain ⟨d, hd, rfl⟩ := List.mem_map.1 htext
        exact decide_eq_true (text_ne_empty (h d hd))
      · intro text htext
        obtain ⟨d, hd, rfl⟩ := List.mem_map.1 htext
        exact not_mem_text (h d hd)

theorem toList_ofComponents {cs : List Component} (hcs : ∀ c ∈ cs, ProperComponent c) :
    (ofComponents cs).toList = joined cs := by
  cases cs with
  | nil => rfl
  | cons c cs =>
      rcases hcs c List.mem_cons_self with rfl | ⟨name, rfl, -⟩
      · exact String.toList_ofList
      · exact String.toList_ofList

/-- Paths are told apart by their texts. -/
theorem ofComponents_inj {cs ds : List Component} (hcs : ∀ c ∈ cs, ProperComponent c)
    (hds : ∀ d ∈ ds, ProperComponent d) (h : ofComponents cs = ofComponents ds) : cs = ds := by
  refine map_text_inj hcs hds ?_
  rw [← pieces_joined hcs, ← pieces_joined hds, ← toList_ofComponents hcs,
    ← toList_ofComponents hds, h]

theorem ofComponents_eq_empty_iff {cs : List Component} (h : ∀ c ∈ cs, ProperComponent c) :
    ofComponents cs = "" ↔ cs = [] :=
  ⟨fun heq => ofComponents_inj h nofun heq, fun heq => by rw [heq]; rfl⟩

/-- A component is read back from its text. -/
theorem ofPiece_text {c : Component} (h : ProperComponent c) :
    Component.ofPiece c.text.toList = [c] := by
  rcases h with rfl | ⟨name, rfl, hempty, hcurrent, hparent, -⟩
  · rfl
  · have htext (other : String) (hne : name ≠ other) : name.toList ≠ other.toList :=
      fun heq => hne (String.toList_inj.1 heq)
    have hempty := htext "" hempty
    have hcurrent := htext "." hcurrent
    have hparent := htext ".." hparent
    rw [Component.text, Component.ofPiece.eq_def]
    split
    · contradiction
    · contradiction
    · contradiction
    · rw [String.ofList_toList]

/-- A path that has been put together is relative. -/
theorem isAbsolute_ofComponents {cs : List Component} (h : ∀ c ∈ cs, ProperComponent c) :
    isAbsolute (ofComponents cs) = false := by
  refine decide_eq_false fun hhead => ?_
  obtain ⟨rest, hrest⟩ := List.head?_eq_some_iff.1 hhead
  rw [toList_ofComponents h] at hrest
  cases cs with
  | nil => contradiction
  | cons c cs =>
      have hc := h c List.mem_cons_self
      obtain ⟨d, text, htext⟩ := List.exists_cons_of_ne_nil (text_ne_empty hc)
      have hfirst : (joined (c :: cs)).head? = some d := by
        cases cs <;> simp [joined, htext, List.intercalate_cons_cons]
      rw [hrest, List.head?_cons, Option.some.injEq] at hfirst
      exact not_mem_text hc (by rw [htext, hfirst]; exact List.mem_cons_self)

/-- **The components of a path** are those that it has been put together from. -/
theorem components_ofComponents {cs : List Component} (h : ∀ c ∈ cs, ProperComponent c) :
    components (ofComponents cs) = cs := by
  cases cs with
  | nil => rfl
  | cons c cs =>
      have hpieces : Text.pieces '/' (joined (c :: cs)) = (c :: cs).map fun c => c.text.toList := by
        refine Text.pieces_intercalate (by simp) fun text htext => ?_
        obtain ⟨d, hd, rfl⟩ := List.mem_map.1 htext
        exact not_mem_text (h d hd)
      have hread : ∀ d ∈ c :: cs, Component.ofPiece d.text.toList = [d] :=
        fun d hd => ofPiece_text (h d hd)
      obtain ⟨hc, hcs⟩ := List.forall_mem_cons.1 hread
      have hcurrent : c.text.toList ≠ ['.'] := by
        intro heq
        rw [heq] at hc
        contradiction
      rw [components, toList_ofComponents h, hpieces, List.map_cons]
      dsimp only
      rw [isAbsolute_ofComponents h, if_neg Bool.false_ne_true, if_neg hcurrent, hc,
        List.flatMap_map, List.flatMap_congr hcs, List.flatMap_singleton']
      rfl

theorem filter_ne_current {cs : List Component} (h : ∀ c ∈ cs, ProperComponent c) :
    cs.filter (· ≠ .current) = cs := by
  refine List.filter_eq_self.2 fun c hc => ?_
  rcases h c hc with rfl | ⟨name, rfl, -⟩ <;> rfl

theorem steps_ofComponents {cs : List Component} (h : ∀ c ∈ cs, ProperComponent c) :
    steps (ofComponents cs) = cs := by
  rw [steps, components_ofComponents h, filter_ne_current h]

theorem normalize_ofComponents {cs : List Component} (h : ∀ c ∈ cs, ProperComponent c) :
    Path.normalize (ofComponents cs) = ofComponents cs := by
  rw [Path.normalize, steps_ofComponents h]

theorem pathText_eq {p : Place} (h : ∀ c ∈ p.path, ProperComponent c) :
    p.pathText = ofComponents p.path := by
  rw [pathText, filter_ne_current h]

theorem components_pathText {tree : Entry} {p : Place} (htree : tree.Proper) (hp : Stands tree p) :
    components p.pathText = p.path := by
  have hproper := properComponent_of_walk htree hp
  rw [pathText_eq hproper, components_ofComponents hproper]

/-- The path of a place is in normal form. -/
theorem normalize_pathText {tree : Entry} {p : Place} (htree : tree.Proper) (hp : Stands tree p) :
    normalize p.pathText = p.pathText := by
  have hproper := properComponent_of_walk htree hp
  rw [pathText_eq hproper, normalize_ofComponents hproper]

/-- **Places with one path are one place.** -/
theorem eq_of_pathText {tree : Entry} {p q : Place} (htree : tree.Proper) (hp : Stands tree p)
    (hq : Stands tree q) (h : p.pathText = q.pathText) : p = q := by
  have hproper := properComponent_of_walk htree hp
  have hproper' := properComponent_of_walk htree hq
  rw [pathText_eq hproper, pathText_eq hproper'] at h
  exact hp.eq_of_path hq (ofComponents_inj hproper hproper' h)

end Place

/-! ## resolved paths -/

namespace Path

open Place

theorem joined_cons (c : Component) (cs : List Component) :
    joined (c :: cs) = c.text.toList ++ cs.flatMap fun d => '/' :: d.text.toList := by
  induction cs generalizing c with
  | nil => simp [joined]
  | cons d cs ih =>
      have hrest := ih d
      simp only [joined, List.map_cons] at hrest ⊢
      rw [List.intercalate_cons_cons, hrest]
      simp

theorem mem_of_mem_joined {cs : List Component} {d : Char} (h : d ∈ joined cs) :
    d = '/' ∨ ∃ c ∈ cs, d ∈ c.text.toList := by
  cases cs with
  | nil => contradiction
  | cons c cs =>
      rw [joined_cons, List.mem_append, List.mem_flatMap] at h
      rcases h with h | ⟨c', hc', h⟩
      · exact .inr ⟨c, List.mem_cons_self, h⟩
      · exact (List.mem_cons.1 h).imp_right fun h => ⟨c', List.mem_cons_of_mem c hc', h⟩

theorem ofPiece_ne_current {piece : List Char} {c : Component} (h : c ∈ Component.ofPiece piece) :
    c ≠ .current := by
  rw [Component.ofPiece.eq_def] at h
  split at h <;> simp_all

theorem filter_flatMap_ofPiece (pieces : List (List Char)) :
    (pieces.flatMap Component.ofPiece).filter (· ≠ .current) =
      pieces.flatMap Component.ofPiece := by
  refine List.filter_eq_self.2 fun c hc => ?_
  obtain ⟨piece, -, hc⟩ := List.mem_flatMap.1 hc
  exact decide_eq_true (ofPiece_ne_current hc)

/-- The steps of a path are those that the pieces between its slashes stand for. -/
theorem steps_eq (path : String) :
    steps path = (if isAbsolute path then [.root] else []) ++
      (Text.pieces '/' path.toList).flatMap Component.ofPiece := by
  rw [steps, components]
  cases hpieces : Text.pieces '/' path.toList with
  | nil => exact absurd hpieces (Text.pieces_ne_nil '/' _)
  | cons first rest =>
      dsimp only
      rw [List.filter_append, filter_flatMap_ofPiece, List.flatMap_cons, ← List.append_assoc]
      refine congrArg (· ++ _) ?_
      split
      · rename_i habsolute
        obtain ⟨behind, hbehind⟩ := List.head?_eq_some_iff.1 (of_decide_eq_true habsolute)
        rw [hbehind, Text.pieces, if_pos rfl] at hpieces
        rw [← (List.cons.inj hpieces).1]
        rfl
      · split
        · rename_i hcurrent
          rw [hcurrent]
          rfl
        · rw [List.nil_append, ← List.flatMap_singleton Component.ofPiece first,
            filter_flatMap_ofPiece]

theorem steps_dot : steps "." = [] := by decide

theorem isAbsolute_dot : isAbsolute "." = false := by decide

theorem isAbsolute_eq_of_toList {path root : String} {behind : List Char} (hroot : root ≠ "")
    (h : path.toList = root.toList ++ behind) : isAbsolute path = isAbsolute root := by
  obtain ⟨c, cs, hcs⟩ := List.exists_cons_of_ne_nil
    (fun hnil => hroot (String.toList_inj.1 hnil) : root.toList ≠ [])
  rw [isAbsolute, isAbsolute, h, hcs]
  rfl

/-- **The steps of a path behind a root.** -/
theorem steps_join {root path : String} (h : isAbsolute path = false) :
    steps (join root path) = steps root ++ steps path := by
  by_cases hroot : root = ""
  · rw [hroot, join, h, if_neg Bool.false_ne_true, if_pos (by decide), String.empty_append]
    rfl
  have hempty : root.isEmpty = false := by simpa using hroot
  rw [join, h, if_neg Bool.false_ne_true, hempty, Bool.false_or, steps_eq root, steps_eq path, h]
  split
  · rename_i hslash
    obtain ⟨above, habove⟩ := List.getLast?_eq_some_iff.1 (of_decide_eq_true hslash)
    have happend : (root ++ path).toList = root.toList ++ path.toList := String.toList_append
    rw [steps_eq, isAbsolute_eq_of_toList hroot happend, happend, habove, List.append_assoc,
      List.singleton_append, Text.pieces_append, Text.pieces_append]
    simp [Text.pieces, Component.ofPiece]
  · have happend : (root ++ "/" ++ path).toList = root.toList ++ '/' :: path.toList := by
      rw [String.toList_append, String.toList_append, List.append_assoc]
      rfl
    rw [steps_eq, isAbsolute_eq_of_toList hroot happend, happend, Text.pieces_append]
    simp

theorem properComponent_of_mem_ofPiece {piece : List Char} (h : '/' ∉ piece) :
    ∀ c ∈ Component.ofPiece piece, ProperComponent c := by
  intro c hc
  rw [Component.ofPiece.eq_def] at hc
  split at hc
  · contradiction
  · contradiction
  · exact .inl (List.mem_singleton.1 hc)
  · rename_i hempty hcurrent hparent
    refine .inr ⟨_, List.mem_singleton.1 hc, ?_, ?_, ?_, by rwa [String.toList_ofList]⟩
    · exact fun heq => hempty (by rw [← String.toList_ofList (l := piece), heq]; rfl)
    · exact fun heq => hcurrent (by rw [← String.toList_ofList (l := piece), heq]; rfl)
    · exact fun heq => hparent (by rw [← String.toList_ofList (l := piece), heq]; rfl)

/-- The components that the pieces of a text stand for are proper. -/
theorem properComponent_of_mem_pieces {text : List Char} :
    ∀ c ∈ (Text.pieces '/' text).flatMap Component.ofPiece, ProperComponent c := by
  intro c hc
  obtain ⟨piece, hpiece, hc⟩ := List.mem_flatMap.1 hc
  exact properComponent_of_mem_ofPiece (fun h => (Text.mem_of_mem_pieces hpiece h).2 rfl) c hc

theorem properComponent_of_mem_steps {path : String} (h : isAbsolute path = false) :
    ∀ c ∈ steps path, ProperComponent c := by
  rw [steps_eq, h, if_neg Bool.false_ne_true, List.nil_append]
  exact properComponent_of_mem_pieces

/-- A piece that means nothing. -/
abbrev IsNeedless (piece : List Char) : Prop := piece = [] ∨ piece = ['.']

theorem map_text_ofPiece (piece : List Char) :
    ((Component.ofPiece piece).map fun c => c.text.toList) =
      if IsNeedless piece then [] else [piece] := by
  rw [Component.ofPiece.eq_def]
  split
  · rfl
  · rfl
  · rfl
  · rename_i hempty hcurrent _
    have hneeded : ¬ IsNeedless piece := not_or.2 ⟨hempty, hcurrent⟩
    rw [if_neg hneeded, List.map_singleton, Component.text, String.toList_ofList]

/-- The texts of the steps of a path are the pieces between its slashes that mean something. -/
theorem map_text_steps {path : String} (h : isAbsolute path = false) :
    ((steps path).map fun c => c.text.toList) =
      (Text.pieces '/' path.toList).filter (¬ IsNeedless ·) := by
  rw [steps_eq, h, if_neg Bool.false_ne_true, List.nil_append, List.map_flatMap]
  induction Text.pieces '/' path.toList with
  | nil => rfl
  | cons piece pieces ih =>
      rw [List.flatMap_cons, ih, map_text_ofPiece, List.filter_cons]
      by_cases hpiece : IsNeedless piece <;> simp [hpiece]

/-- The characters of the steps of a path are those of the path. -/
theorem mem_of_mem_text_steps {path : String} {c : Component} (hc : c ∈ steps path) {d : Char}
    (hd : d ∈ c.text.toList) : d ∈ path.toList := by
  rw [steps_eq] at hc
  rcases List.mem_append.1 hc with hc | hc
  · split at hc
    · rw [List.mem_singleton.1 hc] at hd
      contradiction
    · contradiction
  · obtain ⟨piece, hpiece, hc⟩ := List.mem_flatMap.1 hc
    have htext : c.text.toList = piece := by
      rw [Component.ofPiece.eq_def] at hc
      split at hc
      · contradiction
      · contradiction
      · rw [List.mem_singleton.1 hc]
        rfl
      · rw [List.mem_singleton.1 hc]
        exact String.toList_ofList
    exact (Text.mem_of_mem_pieces hpiece (htext ▸ hd)).1

theorem isAbsolute_resolve {root path : String} (hroot : isAbsolute root = true)
    (hpath : isAbsolute path = false) : isAbsolute (resolve root path) = true := by
  have hnormal : normalize (join root path) =
      String.ofList ('/' :: joined ((Text.pieces '/' root.toList).flatMap Component.ofPiece ++
        steps path)) := by
    rw [normalize, steps_join hpath, steps_eq root, if_pos hroot]
    rfl
  rw [resolve, hpath, if_neg Bool.false_ne_true, hnormal, if_neg (by simp), isAbsolute,
    String.toList_ofList]
  rfl

/-- A resolved path is relative only if both parts are. -/
theorem relative_of_resolve {root path : String} (h : isAbsolute (resolve root path) = false) :
    isAbsolute root = false ∧ isAbsolute path = false := by
  have hpath : isAbsolute path = false := Bool.eq_false_iff.2 fun habsolute => by
    rw [resolve, if_pos habsolute, habsolute] at h
    contradiction
  refine ⟨Bool.eq_false_iff.2 fun habsolute => ?_, hpath⟩
  rw [isAbsolute_resolve habsolute hpath] at h
  contradiction

/-- **A path behind a root** is put together from the steps of both.  If there are none, it is a
dot. -/
theorem resolve_eq {root path : String} (hroot : isAbsolute root = false)
    (hpath : isAbsolute path = false) :
    resolve root path =
      if steps root ++ steps path = [] then "." else ofComponents (steps root ++ steps path) := by
  have hproper : ∀ c ∈ steps root ++ steps path, ProperComponent c :=
    List.forall_mem_append.2
      ⟨properComponent_of_mem_steps hroot, properComponent_of_mem_steps hpath⟩
  have hnormal : normalize (join root path) = ofComponents (steps root ++ steps path) := by
    rw [normalize, steps_join hpath]
  rw [resolve, hpath, if_neg Bool.false_ne_true, hnormal]
  dsimp only
  simp only [String.isEmpty_iff, ofComponents_eq_empty_iff hproper]

theorem isAbsolute_resolve_eq_false {root path : String} (hroot : isAbsolute root = false)
    (hpath : isAbsolute path = false) : isAbsolute (resolve root path) = false := by
  rw [resolve_eq hroot hpath]
  split
  · rfl
  · refine isAbsolute_ofComponents (List.forall_mem_append.2 ?_)
    exact ⟨properComponent_of_mem_steps hroot, properComponent_of_mem_steps hpath⟩

/-- The text of a path behind a root. -/
theorem toList_resolve {root path : String} (hroot : isAbsolute root = false)
    (hpath : isAbsolute path = false) :
    (resolve root path).toList =
      if steps root ++ steps path = [] then ['.'] else joined (steps root ++ steps path) := by
  rw [resolve_eq hroot hpath]
  split
  · rfl
  · refine toList_ofComponents (List.forall_mem_append.2 ?_)
    exact ⟨properComponent_of_mem_steps hroot, properComponent_of_mem_steps hpath⟩

/-- **The texts between the slashes of a resolved path** are those of the steps, behind each other.
If there are no steps, the path is a dot. -/
theorem pieces_resolve {root path : String} (h : isAbsolute (resolve root path) = false) :
    (Text.pieces '/' (resolve root path).toList).filter (· ≠ []) =
      if steps root ++ steps path = [] then [['.']]
      else (steps root ++ steps path).map fun c => c.text.toList := by
  obtain ⟨hroot, hpath⟩ := relative_of_resolve h
  rw [toList_resolve hroot hpath]
  split
  · rfl
  · refine pieces_joined (List.forall_mem_append.2 ?_)
    exact ⟨properComponent_of_mem_steps hroot, properComponent_of_mem_steps hpath⟩

end Path

end LocaleAudit
