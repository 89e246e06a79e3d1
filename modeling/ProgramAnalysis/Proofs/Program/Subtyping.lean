import ProgramAnalysis.Proofs.Counting
import ProgramAnalysis.Proofs.Loop
import ProgramAnalysis.Proofs.Program.Hierarchy
import ProgramAnalysis.Proofs.Program.HierarchyIndex
import ProgramAnalysis.Proofs.Program.Lookup

/-! The walk down over the indexes and the walk up over the declarations tell the same subtypes, also
where links form diamonds and cycles. Both are loops without a bound; they end because the links of
a class are followed once, when the class is first taken. -/
namespace ProgramAnalysis.Program

variable {p : Program} {c d target : ClassId}

/-- The superclasses and interfaces of all classes are classes of the program. -/
def LinksInRange (p : Program) : Prop := ∀ decl ∈ p.classes, ∀ c ∈ above decl, p.HasClass c

instance (p : Program) : Decidable p.LinksInRange :=
  inferInstanceAs (Decidable (∀ decl ∈ p.classes, ∀ c ∈ above decl, p.HasClass c))

/-- A walk under way: the classes that are queued and those that were taken. -/
structure Walk where
  queue : List ClassId
  seen : List ClassId

variable {s t : Walk}

/-! ### Down -/

def downRound (below : ClassId → List ClassId) : Walk → Walk ⊕ List ClassId
  | ⟨[], seen⟩ => .inr seen
  | ⟨c :: queue, seen⟩ =>
    .inl (if c ∈ seen then ⟨queue, seen⟩ else ⟨queue ++ below c, seen ++ [c]⟩)

/-- Each round takes an entry off the queue, and each entry comes from a link of its own. -/
theorem downRound_lt (h : downRound p.below s = .inl t) :
    t.queue.length + p.unseenLinks t.seen < s.queue.length + p.unseenLinks s.seen := by
  obtain ⟨_ | ⟨c, queue⟩, seen⟩ := s
  · cases h
  · cases Sum.inl.inj h
    by_cases hc : c ∈ seen
    · simp only [if_pos hc, List.length_cons]
      omega
    · have hlinks := p.unseenLinks_append hc
      simp only [if_neg hc, List.length_cons, List.length_append]
      omega

theorem subtypes_ends (p : Program) (c : ClassId) :
    Ends (downRound p.below) ⟨[c], []⟩ (p.subtypes c) := by
  refine Ends.of_fuel (fun fuel t => walkDown p.below fuel t.queue t.seen) (fun _ => True)
    (fun t => t.queue.length + p.unseenLinks t.seen) ?_ (fun _ h => ⟨trivial, downRound_lt h⟩)
    trivial ?_
  · rintro fuel ⟨_ | ⟨c, queue⟩, seen⟩
    · rfl
    · simp only [walkDown, downRound]
      split <;> rfl
  · simp only [unseenLinks_nil, List.length_singleton]
    omega

/-- What was taken stays in front, and nothing is taken twice. -/
theorem walkDown_extends (below : ClassId → List ClassId) (fuel : Nat) {queue seen : List ClassId}
    (hseen : seen.Nodup) :
    seen <+: walkDown below fuel queue seen ∧ (walkDown below fuel queue seen).Nodup := by
  induction fuel generalizing queue seen with
  | zero => exact ⟨List.prefix_rfl, hseen⟩
  | succ fuel ih =>
    cases queue with
    | nil => exact ⟨List.prefix_rfl, hseen⟩
    | cons c queue =>
      rw [walkDown]
      split
      · exact ih hseen
      · next hc =>
        have hseen' : (seen ++ [c]).Nodup := by
          rw [← List.concat_eq_append]
          exact hseen.concat hc
        obtain ⟨hfront, hnodup⟩ := @ih (queue ++ below c) _ hseen'
        exact ⟨(List.prefix_append seen [c]).trans hfront, hnodup⟩

theorem head?_subtypes (p : Program) (c : ClassId) : (p.subtypes c).head? = some c := by
  have htake : p.subtypes c = walkDown p.below (p.linkCount + 1) ([] ++ p.below c) [c] := by
    rw [subtypes, walkDown, if_neg List.not_mem_nil]
    rfl
  obtain ⟨rest, hrest⟩ :=
    (walkDown_extends p.below (p.linkCount + 1) (List.nodup_singleton c)).1
  rw [htake, ← hrest]
  rfl

/-! ### Up -/

def upRound (p : Program) (target : ClassId) : Walk → Walk ⊕ Except AnalysisError Bool
  | ⟨[], _⟩ => .inr (.ok false)
  | ⟨c :: queue, seen⟩ =>
    if c = target then .inr (.ok true)
    else if c ∈ seen then .inl ⟨queue, seen⟩
    else match p.getClass c with
      | .error e => .inr (.error e)
      | .ok d => .inl ⟨queue ++ above d, c :: seen⟩

def aboveCount (p : Program) (c : ClassId) : Nat := (p.class? c).elim 0 fun d => (above d).length

/-- The links that the walk up may still follow. -/
def untakenLinks (p : Program) (seen : List ClassId) : Nat :=
  total ((p.classIds.filter fun c => c ∉ seen).map p.aboveCount)

theorem untakenLinks_nil (p : Program) : p.untakenLinks [] = p.linkCount := by
  have hcounts : p.classIds.map p.aboveCount =
      p.classes.toList.map fun d => d.superclass.toList.length + d.interfaces.length := by
    refine List.ext_getElem (by simp [classIds]) fun i hi _ => ?_
    have hsize : i < p.classes.size := by simpa [classIds] using hi
    simp [classIds, aboveCount, class?, above, hsize]
  have hall : (p.classIds.filter fun c => c ∉ ([] : List ClassId)) = p.classIds := by simp
  rw [untakenLinks, hall, hcounts, linkCount]

theorem untakenLinks_cons {decl : ClassDecl} {seen : List ClassId} (hdecl : p.class? c = some decl)
    (hc : c ∉ seen) : p.untakenLinks (c :: seen) + (above decl).length = p.untakenLinks seen := by
  have hnodup : p.classIds.Nodup :=
    List.nodup_range.map fun _ _ h => congrArg ClassId.index h
  have hmem : c ∈ p.classIds := by
    have hlt : c.index < p.classes.size := (Array.getElem?_eq_some_iff.mp hdecl).1
    exact List.mem_map.mpr ⟨c.index, List.mem_range.mpr hlt, rfl⟩
  have hcount : p.aboveCount c = (above decl).length := by rw [aboveCount, hdecl]; rfl
  rw [← hcount]
  exact total_filter_not_mem_cons hnodup hmem hc

/-- A round that is not the last drops a class taken before or takes one other than the target. -/
theorem upRound_again (h : p.upRound target s = .inl t) :
    ∃ c queue, s.queue = c :: queue ∧ c ≠ target ∧ ((c ∈ s.seen ∧ t = ⟨queue, s.seen⟩) ∨
      ∃ decl, c ∉ s.seen ∧ p.class? c = some decl ∧ t = ⟨queue ++ above decl, c :: s.seen⟩) := by
  obtain ⟨queue, seen⟩ := s
  cases queue with
  | nil => cases h
  | cons c queue =>
    rw [upRound] at h
    split at h
    · cases h
    · next htarget =>
      refine ⟨c, queue, rfl, htarget, ?_⟩
      split at h
      · next hc => exact .inl ⟨hc, (Sum.inl.inj h).symm⟩
      · next hc =>
        split at h
        · cases h
        · next decl hdecl => exact .inr ⟨decl, hc, class?_of_getClass hdecl, (Sum.inl.inj h).symm⟩

theorem upRound_lt (h : p.upRound target s = .inl t) :
    t.queue.length + p.untakenLinks t.seen < s.queue.length + p.untakenLinks s.seen := by
  obtain ⟨queue', seen⟩ := s
  obtain ⟨c, queue, rfl, _, ⟨_, rfl⟩ | ⟨decl, hc, hdecl, rfl⟩⟩ := upRound_again h
  · simp only [List.length_cons]
    omega
  · have hlinks : p.untakenLinks (c :: seen) + (above decl).length = p.untakenLinks seen :=
      untakenLinks_cons hdecl hc
    simp only [List.length_cons, List.length_append]
    omega

theorem isSubtype_ends (p : Program) (c d : ClassId) :
    Ends (p.upRound d) ⟨[c], []⟩ (p.isSubtype c d) := by
  refine Ends.of_fuel (fun fuel t => p.walkUp d fuel t.queue t.seen) (fun _ => True)
    (fun t => t.queue.length + p.untakenLinks t.seen) ?_ (fun _ h => ⟨trivial, upRound_lt h⟩)
    trivial ?_
  · rintro fuel ⟨_ | ⟨c, queue⟩, seen⟩
    · rfl
    · simp only [walkUp, upRound]
      split
      · rfl
      · split
        · rfl
        · cases p.getClass c <;> rfl
  · simp only [untakenLinks_nil, List.length_singleton]
    omega

/-- The walk up gives up at an empty queue only, and fails at a class out of range only. -/
theorem upRound_leave {r : Except AnalysisError Bool} (h : p.upRound target s = .inr r) :
    r = .ok true ∨ (r = .ok false ∧ s.queue = []) ∨
      ∃ e, r = .error e ∧ ∃ c ∈ s.queue, ¬ p.HasClass c := by
  obtain ⟨queue, seen⟩ := s
  cases queue with
  | nil => exact .inr (.inl ⟨(Sum.inr.inj h).symm, rfl⟩)
  | cons c queue =>
    rw [upRound] at h
    split at h
    · exact .inl (Sum.inr.inj h).symm
    · split at h
      · cases h
      · split at h
        · next e hget =>
          refine .inr (.inr ⟨e, (Sum.inr.inj h).symm, c, List.mem_cons_self, fun hc => ?_⟩)
          obtain ⟨decl, _, hok⟩ := getClass_eq hc
          cases hok.symm.trans hget
        · cases h

theorem upRound_ok {r : Except AnalysisError Bool} (hp : p.LinksInRange)
    (h : Ends (p.upRound target) s r) (hqueue : ∀ c ∈ s.queue, p.HasClass c) :
    ∃ b, r = .ok b := by
  induction h with
  | leave hround =>
    rcases upRound_leave hround with htrue | ⟨hfalse, _⟩ | ⟨_, _, c, hc, hout⟩
    · exact ⟨true, htrue⟩
    · exact ⟨false, hfalse⟩
    · exact absurd (hqueue c hc) hout
  | again hround _ ih =>
    refine ih fun e he => ?_
    obtain ⟨c, queue, hs, _, ⟨_, rfl⟩ | ⟨decl, _, hdecl, rfl⟩⟩ := upRound_again hround
    · exact hqueue e (hs ▸ List.mem_cons_of_mem c he)
    · rcases List.mem_append.mp he with he | he
      · exact hqueue e (hs ▸ List.mem_cons_of_mem c he)
      · exact hp decl (Array.mem_of_getElem? hdecl) e he

/-- The classes taken are not the target, and their links lead to classes in the queue or taken. -/
def Missed (p : Program) (target : ClassId) (s : Walk) : Prop :=
  ∀ c ∈ s.seen, c ≠ target ∧ ∀ d, p.Inherits c d → d ∈ s.queue ∨ d ∈ s.seen

theorem Missed.again (hs : p.Missed target s) (h : p.upRound target s = .inl t) :
    p.Missed target t ∧ ∀ c, c ∈ s.queue ∨ c ∈ s.seen → c ∈ t.queue ∨ c ∈ t.seen := by
  obtain ⟨queue', seen⟩ := s
  obtain ⟨c, queue, rfl, htarget, ⟨hc, rfl⟩ | ⟨decl, _, hdecl, rfl⟩⟩ := upRound_again h
  · have hstay : ∀ d, d ∈ c :: queue ∨ d ∈ seen → d ∈ queue ∨ d ∈ seen := by
      rintro d (hd | hd)
      · rcases List.mem_cons.mp hd with rfl | hd
        · exact .inr hc
        · exact .inl hd
      · exact .inr hd
    exact ⟨fun e he => ⟨(hs e he).1, fun d hd => hstay d ((hs e he).2 d hd)⟩, hstay⟩
  · have hstay : ∀ d, d ∈ c :: queue ∨ d ∈ seen →
        d ∈ queue ++ above decl ∨ d ∈ c :: seen := by
      rintro d (hd | hd)
      · rcases List.mem_cons.mp hd with rfl | hd
        · exact .inr List.mem_cons_self
        · exact .inl (List.mem_append_left _ hd)
      · exact .inr (List.mem_cons_of_mem c hd)
    refine ⟨fun e he => ?_, hstay⟩
    rcases List.mem_cons.mp he with rfl | he
    · refine ⟨htarget, fun d ⟨decl', hdecl', hd⟩ => ?_⟩
      cases hdecl.symm.trans hdecl'
      exact .inl (List.mem_append_right _ hd)
    · exact ⟨(hs e he).1, fun d hd => hstay d ((hs e he).2 d hd)⟩

theorem Missed.not_reaches (hs : p.Missed target s) (hempty : s.queue = [])
    (hc : c ∈ s.seen) : ¬ Relation.ReflTransGen p.Inherits c target := by
  intro hpath
  induction hpath using Relation.ReflTransGen.head_induction_on with
  | refl => exact (hs target hc).1 rfl
  | head hstep _ ih =>
    refine ih (((hs _ hc).2 _ hstep).resolve_left fun hd => ?_)
    rw [hempty] at hd
    cases hd

/-- A walk up that gives up has been at every class above those that it started from. -/
theorem upRound_complete {r : Except AnalysisError Bool} (h : Ends (p.upRound target) s r)
    (hr : r = .ok false) (hs : p.Missed target s) (hc : c ∈ s.queue ∨ c ∈ s.seen) :
    ¬ Relation.ReflTransGen p.Inherits c target := by
  induction h with
  | leave hround =>
    subst hr
    rcases upRound_leave hround with htrue | ⟨_, hempty⟩ | ⟨_, herror, _⟩
    · cases htrue
    · refine hs.not_reaches hempty (hc.resolve_left fun hc => ?_)
      rw [hempty] at hc
      cases hc
    · cases herror
  | again hround _ ih =>
    obtain ⟨ht, hstay⟩ := hs.again hround
    exact ih hr ht (hstay c hc)

theorem isSubtype_complete (h : p.isSubtype c d = .ok false) :
    ¬ Relation.ReflTransGen p.Inherits c d := by
  have hstart : p.Missed d ⟨[c], []⟩ := fun e he => absurd he List.not_mem_nil
  exact upRound_complete (p.isSubtype_ends c d) h hstart (.inl List.mem_cons_self)

theorem isSubtype_ok (hp : p.LinksInRange) (hc : p.HasClass c) :
    ∃ b, p.isSubtype c d = .ok b :=
  upRound_ok hp (p.isSubtype_ends c d) fun _ he => List.mem_singleton.mp he ▸ hc

theorem isSubtype_iff (hp : p.LinksInRange) (hc : p.HasClass c) :
    p.isSubtype c d = .ok true ↔ Relation.ReflTransGen p.Inherits c d := by
  refine ⟨isSubtype_sound, fun hpath => ?_⟩
  obtain ⟨b, hb⟩ := isSubtype_ok (d := d) hp hc
  cases b with
  | true => exact hb
  | false => exact absurd hpath (isSubtype_complete hb)

/-! ### Both -/

/-- Over links in range, whatever they are, both walks end; a class is among the subtypes that the walk
down collects exactly if the walk up from it finds the start of the walk down, that is if the start is
reached from it along superclasses and interfaces. The walk down begins with its start and has no
repetition. -/
theorem subtypes_iff_isSubtype (hp : p.LinksInRange) (hd : p.HasClass d) :
    Ends (downRound p.hierarchy.below) ⟨[c], []⟩ (p.hierarchy.subtypes c) ∧
      (∃ b, p.isSubtype d c = .ok b ∧ Ends (p.upRound c) ⟨[d], []⟩ (.ok b)) ∧
      (d ∈ p.hierarchy.subtypes c ↔ p.isSubtype d c = .ok true) ∧
      (d ∈ p.hierarchy.subtypes c ↔ Relation.ReflTransGen p.Inherits d c) ∧
      (p.hierarchy.subtypes c).head? = some c ∧ (p.hierarchy.subtypes c).Nodup := by
  rw [HierarchyIndex.below_hierarchy, HierarchyIndex.subtypes_hierarchy]
  obtain ⟨b, hb⟩ := isSubtype_ok (d := c) hp hd
  refine ⟨p.subtypes_ends c, ⟨b, hb, hb ▸ p.isSubtype_ends d c⟩, ?_, mem_subtypes_iff,
    p.head?_subtypes c, (walkDown_extends p.below _ List.nodup_nil).2⟩
  rw [mem_subtypes_iff, isSubtype_iff hp hd]

/-- Interfaces in a cycle, of which one is named twice, and a class below both ahead of its
superclass. -/
def tangled : Program where
  classes := #[⟨"Leaf", some ⟨3⟩, [⟨1⟩], false, false, [], []⟩,
    ⟨"Left", none, [⟨2⟩, ⟨2⟩], true, true, [], []⟩, ⟨"Right", none, [⟨1⟩], true, true, [], []⟩,
    ⟨"Base", none, [⟨2⟩], false, false, [], []⟩]
  fields := #[]
  methods := #[]
  vars := #[]
  entry := none
  root := none

theorem subtypes_iff_isSubtype_tangled :
    tangled.LinksInRange ∧ tangled.HasClass ⟨0⟩ ∧
      tangled.hierarchy.subtypes ⟨2⟩ = [⟨2⟩, ⟨1⟩, ⟨3⟩, ⟨0⟩] ∧
      tangled.isSubtype ⟨0⟩ ⟨2⟩ = .ok true ∧
      Relation.ReflTransGen tangled.Inherits ⟨0⟩ ⟨2⟩ := by
  have hp : tangled.LinksInRange := by decide
  have hwalk : tangled.hierarchy.subtypes ⟨2⟩ = [⟨2⟩, ⟨1⟩, ⟨3⟩, ⟨0⟩] := by decide
  obtain ⟨_, _, hup, hpath, _⟩ :=
    subtypes_iff_isSubtype (p := tangled) (c := ⟨2⟩) (d := ⟨0⟩) hp (by decide)
  have hmem : ⟨0⟩ ∈ tangled.hierarchy.subtypes ⟨2⟩ := by rw [hwalk]; decide
  exact ⟨hp, by decide, hwalk, hup.mp hmem, hpath.mp hmem⟩

end ProgramAnalysis.Program
