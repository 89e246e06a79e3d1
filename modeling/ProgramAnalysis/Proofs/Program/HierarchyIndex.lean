import ProgramAnalysis.Program.HierarchyIndex
import ProgramAnalysis.Proofs.Counting

/-! The indexes of the hierarchy hold the links of the classes, inverted: in each list the classes stand
in order of declaration, as often as they have the link. -/
namespace ProgramAnalysis.HierarchyIndex

variable {t : Table ClassId (List ClassId)} {c s : ClassId}

theorem filed_insert (b : ClassId) (cs : List ClassId) :
    filed (t.insert b cs) s = if b = s then cs else filed t s := by
  unfold filed
  rw [Table.get?_insert]
  split <;> rfl

theorem filed_file (supers : List ClassId) :
    filed (file c supers t) s = filed t s ++ (supers.filter (· == s)).map fun _ => c := by
  unfold file
  induction supers generalizing t with
  | nil => simp
  | cons b supers ih =>
    rw [List.foldl_cons, ih, filed_insert]
    by_cases h : b = s
    · subst h
      simp
    · simp [h]

/-- Each of the three lists of a class grows by the links of its kind. -/
theorem addClass_grows (h : HierarchyIndex) (d : ClassDecl) :
    (h.addClass c d).subclassesOf s =
        h.subclassesOf s ++ (d.superclass.toList.filter (· == s)).map (fun _ => c) ∧
      (h.addClass c d).subinterfacesOf s = h.subinterfacesOf s ++
        ((if d.isInterface then d.interfaces else []).filter (· == s)).map (fun _ => c) ∧
      (h.addClass c d).implementorsOf s = h.implementorsOf s ++
        ((if d.isInterface then [] else d.interfaces).filter (· == s)).map (fun _ => c) := by
  unfold addClass subclassesOf subinterfacesOf implementorsOf
  dsimp only
  split
  · exact ⟨filed_file _, filed_file _, (List.append_nil _).symm⟩
  · exact ⟨filed_file _, (List.append_nil _).symm, filed_file _⟩

/-- A list that grows by the links to `s` with each class ends up with all of them. -/
theorem eq_links_of_grows (p : Program) (list : HierarchyIndex → List ClassId)
    (f : ClassDecl → List ClassId) (hempty : list empty = [])
    (hgrows : ∀ h c d, list (h.addClass c d) = list h ++ ((f d).filter (· == s)).map fun _ => c) :
    list p.hierarchy = p.links f s := by
  have hfold : ∀ (ds : List (ClassDecl × Nat)) (h : HierarchyIndex),
      list (ds.foldl (fun h e => h.addClass ⟨e.2⟩ e.1) h) =
        list h ++ ds.flatMap fun e => ((f e.1).filter (· == s)).map fun _ => ⟨e.2⟩ := by
    intro ds
    induction ds with
    | nil => exact fun h => (List.append_nil _).symm
    | cons e ds ih =>
      intro h
      rw [List.foldl_cons, ih, hgrows, List.flatMap_cons, List.append_assoc]
  have hall := hfold p.classes.toList.zipIdx empty
  rw [hempty, List.nil_append] at hall
  exact hall

variable {p : Program}

theorem subclassesOf_hierarchy : p.hierarchy.subclassesOf s = p.subclasses s :=
  eq_links_of_grows p (·.subclassesOf s) (·.superclass.toList) rfl fun h _ d => (addClass_grows h d).1

theorem subinterfacesOf_hierarchy : p.hierarchy.subinterfacesOf s = p.subinterfaces s :=
  eq_links_of_grows p (·.subinterfacesOf s) _ rfl fun h _ d => (addClass_grows h d).2.1

theorem implementorsOf_hierarchy : p.hierarchy.implementorsOf s = p.implementors s :=
  eq_links_of_grows p (·.implementorsOf s) _ rfl fun h _ d => (addClass_grows h d).2.2

theorem below_hierarchy : p.hierarchy.below = p.below := by
  funext s
  rw [below, subclassesOf_hierarchy, subinterfacesOf_hierarchy, implementorsOf_hierarchy,
    Program.below]

/-! ### Counting the links -/

theorem filedCount_insert (b : ClassId) :
    filedCount (t.insert b (filed t b ++ [c])) = filedCount t + 1 := by
  have hupsert : ∀ xs : List (ClassId × List ClassId),
      total ((upsert b ((find b xs).getD [] ++ [c]) xs).map (·.2.length)) =
        total (xs.map (·.2.length)) + 1 := by
    intro xs
    induction xs with
    | nil => rfl
    | cons x xs ih =>
      obtain ⟨k, cs⟩ := x
      by_cases h : k = b
      · simp only [upsert, find, if_pos h, List.map_cons, total_cons, Option.getD_some,
          List.length_append, List.length_singleton]
        omega
      · simp only [upsert, find, if_neg h, List.map_cons, total_cons, ih]
        omega
  exact hupsert t.entries

theorem filedCount_file (supers : List ClassId) :
    filedCount (file c supers t) = filedCount t + supers.length := by
  unfold file
  induction supers generalizing t with
  | nil => rfl
  | cons b supers ih =>
    rw [List.foldl_cons, ih, filedCount_insert, List.length_cons]
    omega

theorem linkCount_addClass (h : HierarchyIndex) (d : ClassDecl) :
    (h.addClass c d).linkCount =
      h.linkCount + (d.superclass.toList.length + d.interfaces.length) := by
  unfold addClass linkCount
  dsimp only
  split <;> simp only [filedCount_file] <;> omega

theorem linkCount_hierarchy : p.hierarchy.linkCount = p.linkCount := by
  have hfold : ∀ (ds : List ClassDecl) (k : Nat) (h : HierarchyIndex),
      ((ds.zipIdx k).foldl (fun h e => h.addClass ⟨e.2⟩ e.1) h).linkCount =
        h.linkCount + total (ds.map fun d => d.superclass.toList.length + d.interfaces.length) := by
    intro ds
    induction ds with
    | nil => exact fun _ _ => rfl
    | cons d ds ih =>
      intro k h
      rw [List.zipIdx_cons, List.foldl_cons, ih, linkCount_addClass, List.map_cons, total_cons,
        Nat.add_assoc]
  exact (hfold p.classes.toList 0 empty).trans (Nat.zero_add _)

/-- The walk down over the indexes collects what the walk over the declarations does, in the same
order. -/
theorem subtypes_hierarchy : p.hierarchy.subtypes = p.subtypes := by
  funext c
  rw [subtypes, below_hierarchy, linkCount_hierarchy, Program.subtypes]

end ProgramAnalysis.HierarchyIndex
