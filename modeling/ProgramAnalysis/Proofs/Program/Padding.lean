import ProgramAnalysis.Proofs.Counting
import ProgramAnalysis.Proofs.Program.Agreement

/-! Programs with further classes that nothing is declared in. Every lookup that succeeds in a program
gives the same in one with more classes, and with enough of them all class handles of the program are in
range. So what is proved of programs with their handles in range holds of runs that do not fail. -/
namespace ProgramAnalysis

def ClassDecl.blank : ClassDecl := ⟨"", none, [], false, false, [], []⟩

/-- The classes that the solver looks up on account of a statement. -/
def Stmt.classes : Stmt → List ClassId
  | .invoke _ call => [call.target.cls]
  | .assign _ (.new (.cls c)) => [c]
  | _ => []

namespace Program

def withClass (p : Program) : Program := { p with classes := p.classes.push .blank }

def withClasses (p : Program) : Nat → Program
  | 0 => p
  | n + 1 => (p.withClasses n).withClass

def classHandles (p : Program) : List ClassId :=
  p.classes.toList.flatMap above ++ p.root.toList ++
    p.methods.toList.flatMap fun d => d.body.toList.flatMap fun b =>
      b.stmts.toList.flatMap Stmt.classes

variable {p : Program} {c : ClassId} {d : ClassDecl}

/-! ### One more class -/

theorem class?_withClass (h : p.class? c = some d) : p.withClass.class? c = some d := by
  have hlt : c.index < p.classes.size := (Array.getElem?_eq_some_iff.mp h).1
  unfold class? withClass at *
  rw [Array.getElem?_push, if_neg (Nat.ne_of_lt hlt), h]

theorem of_class?_withClass (h : p.withClass.class? c = some d) :
    p.class? c = some d ∨ d = .blank := by
  unfold class? withClass at *
  rw [Array.getElem?_push] at h
  split at h
  · exact .inr (Option.some.inj h).symm
  · exact .inl h

theorem getClass_withClass (h : p.getClass c = .ok d) : p.withClass.getClass c = .ok d :=
  orDangling_eq_ok_iff.mpr (class?_withClass (orDangling_eq_ok_iff.mp h))

/-- A lookup visits a class once, so that it ends before it runs out of fuel. -/
theorem lookupFrom_withClass {s : String} {accept : MethodDecl → Bool} {found : Option MethodId}
    (fuel : Nat) {c? : Option ClassId} {seen : List ClassId} (hnodup : seen.Nodup)
    (hlt : ∀ c ∈ seen, p.HasClass c) (hfuel : p.classes.size < fuel + seen.length)
    (h : p.lookupFrom s accept fuel c? seen = .ok found) :
    p.withClass.lookupFrom s accept (fuel + 1) c? seen = .ok found := by
  induction fuel generalizing c? seen with
  | zero =>
    have hle := length_le_of_index_lt hnodup hlt
    omega
  | succ fuel ih =>
    cases c? with
    | none => exact h
    | some c =>
      rw [lookupFrom] at h ⊢
      by_cases hseen : c ∈ seen
      · rw [if_pos hseen] at h ⊢
        exact h
      · rw [if_neg hseen] at h ⊢
        obtain ⟨d, hd, h⟩ := bind_ok_iff.mp h
        refine bind_ok_iff.mpr ⟨d, getClass_withClass hd, ?_⟩
        have hnext : ∀ c?, p.lookupFrom s accept fuel c? (c :: seen) = .ok found →
            p.withClass.lookupFrom s accept (fuel + 1) c? (c :: seen) = .ok found := by
          have hc : p.HasClass c :=
            (Array.getElem?_eq_some_iff.mp (orDangling_eq_ok_iff.mp hd)).1
          intro c? h
          refine ih (List.nodup_cons.mpr ⟨hseen, hnodup⟩)
            (List.forall_mem_cons.mpr ⟨hc, hlt⟩) ?_ h
          rw [List.length_cons]
          omega
        cases hm : d.declared? s with
        | none =>
          rw [hm] at h
          exact hnext _ h
        | some m =>
          rw [hm] at h
          obtain ⟨decl, hdecl, h⟩ := bind_ok_iff.mp h
          refine bind_ok_iff.mpr ⟨decl, hdecl, ?_⟩
          by_cases haccept : accept decl = true
          · rw [if_pos haccept] at h ⊢
            exact h
          · rw [if_neg haccept] at h ⊢
            exact hnext _ h

theorem lookup_withClass {s : String} {accept : MethodDecl → Bool} {found : Option MethodId}
    (h : p.lookupFrom s accept (p.classes.size + 2) (some c) [] = .ok found) :
    p.withClass.lookupFrom s accept (p.withClass.classes.size + 2) (some c) [] = .ok found := by
  have hsize : p.withClass.classes.size = p.classes.size + 1 := Array.size_push _
  rw [hsize]
  exact lookupFrom_withClass _ List.nodup_nil nofun (by simp) h

theorem agrees_withClass (R : Set MethodId) (p : Program) : p.Agrees R p.withClass :=
  ⟨⟨rfl, fun h _ => h, rfl, lookup_withClass, lookup_withClass, fun _ _ => rfl⟩, rfl⟩

theorem Accepted.withClass (h : p.Accepted) : p.withClass.Accepted := by
  obtain ⟨b, hb, hbuild⟩ := h
  obtain ⟨rfl, hchecked⟩ := Builder.build_ok_iff_checked.mp hbuild
  refine ⟨(b.addClass "" none).2, hb.addClass "" none, ?_⟩
  exact Builder.build_ok_iff_checked.mpr ⟨rfl, ⟨hchecked.concrete, hchecked.static,
    hchecked.jumps, hchecked.owned, hchecked.entry⟩⟩

/-! ### Any number of classes -/

theorem withClasses_eq (p : Program) (n : Nat) : ∃ classes : Array ClassDecl,
    p.withClasses n = { p with classes } ∧ classes.size = p.classes.size + n := by
  induction n with
  | zero => exact ⟨p.classes, rfl, rfl⟩
  | succ n ih =>
    obtain ⟨classes, heq, hsize⟩ := ih
    refine ⟨classes.push .blank, by rw [withClasses, heq]; rfl, ?_⟩
    rw [Array.size_push, hsize]
    rfl

theorem agrees_withClasses (R : Set MethodId) (p : Program) (n : Nat) :
    p.Agrees R (p.withClasses n) := by
  induction n with
  | zero => exact .refl R p
  | succ n ih => exact ih.trans (agrees_withClass R _)

theorem Accepted.withClasses (h : p.Accepted) (n : Nat) : (p.withClasses n).Accepted := by
  induction n with
  | zero => exact h
  | succ n ih => exact ih.withClass

theorem of_class?_withClasses {n : Nat} (h : (p.withClasses n).class? c = some d) :
    p.class? c = some d ∨ d = .blank := by
  induction n with
  | zero => exact .inl h
  | succ n ih => exact (of_class?_withClass h).elim ih .inr

/-- With enough classes, all class handles are in range. -/
theorem classesInRange_withClasses (p : Program) {n : Nat}
    (hn : ∀ c ∈ p.classHandles, c.index < n) : (p.withClasses n).ClassesInRange := by
  obtain ⟨classes, heq, hsize⟩ := p.withClasses_eq n
  have hhas : ∀ c ∈ p.classHandles, (p.withClasses n).HasClass c := fun c hc => by
    have hlt := hn c hc
    show c.index < (p.withClasses n).classes.size
    rw [heq]
    show c.index < classes.size
    omega
  have habove : ∀ {c d s}, (p.withClasses n).class? c = some d → s ∈ above d →
      (p.withClasses n).HasClass s := by
    intro c d s hd hs
    rcases of_class?_withClasses hd with hd | rfl
    · refine hhas s (List.mem_append_left _ (List.mem_append_left _ ?_))
      exact List.mem_flatMap.mpr ⟨d, Array.mem_toList_iff.mpr (Array.mem_of_getElem? hd), hs⟩
    · cases hs
  have hstmt : ∀ {site s c}, (p.withClasses n).stmt? site = some s → c ∈ s.classes →
      (p.withClasses n).HasClass c := by
    intro site s c hs hc
    have hs : p.stmt? site = some s := by
      rw [heq] at hs
      exact hs
    obtain ⟨b, hb, hi⟩ := stmt?_eq_some_iff.mp hs
    obtain ⟨decl, hdecl, hbody⟩ := body?_eq_some_iff.mp hb
    refine hhas c (List.mem_append_right _ (List.mem_flatMap.mpr ⟨decl, ?_, ?_⟩))
    · exact Array.mem_toList_iff.mpr (Array.mem_of_getElem? hdecl)
    · refine List.mem_flatMap.mpr ⟨b, Option.mem_toList.mpr hbody, List.mem_flatMap.mpr ⟨s, ?_, hc⟩⟩
      exact Array.mem_toList_iff.mpr (Array.mem_of_getElem? hi)
  refine ⟨fun hd hs => habove hd (List.mem_append_left _ (Option.mem_toList.mpr hs)),
    fun hd hs => habove hd (List.mem_append_right _ hs), fun {c} hc => ?_,
    fun hs => hstmt hs List.mem_cons_self, fun hs => hstmt hs List.mem_cons_self⟩
  rw [heq] at hc
  exact hhas c (List.mem_append_left _ (List.mem_append_right _ (Option.mem_toList.mpr hc)))

/-- Some program with the same fields, methods and variables has its class handles in range, and does
whatever the program does without failing. -/
theorem exists_padded (p : Program) (ha : p.Accepted) : ∃ classes : Array ClassDecl,
    Accepted { p with classes } ∧ ClassesInRange { p with classes } ∧
      ∀ R, p.Agrees R { p with classes } := by
  let n := total (p.classHandles.map fun c => c.index) + 1
  have hn : ∀ c ∈ p.classHandles, c.index < n := fun c hc =>
    Nat.lt_succ_of_le (le_total (List.mem_map.mpr ⟨c, hc, rfl⟩))
  obtain ⟨classes, heq, -⟩ := p.withClasses_eq n
  refine ⟨classes, ?_⟩
  rw [← heq]
  exact ⟨ha.withClasses n, p.classesInRange_withClasses hn, fun R => agrees_withClasses R p n⟩

end Program
end ProgramAnalysis
