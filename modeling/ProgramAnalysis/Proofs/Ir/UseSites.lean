import Mathlib.Data.List.Induction
import ProgramAnalysis.Ir.Body

/-! The use index of a body is exact: a statement is recorded for a variable and a way of use
exactly when it goes through that variable in that way, in the order of the statements. The returned
variables are those of the return statements, in the order of their first returns. -/
namespace ProgramAnalysis

/-- The ways in which a statement can go through a variable. -/
inductive UseKind where
  | fieldStore | fieldLoad | elementStore | elementLoad | invoke
deriving DecidableEq

def UseSites.of : UseKind → UseSites → List Nat
  | .fieldStore => (·.fieldStores)
  | .fieldLoad => (·.fieldLoads)
  | .elementStore => (·.elementStores)
  | .elementLoad => (·.elementLoads)
  | .invoke => (·.invokes)

def UseSites.add (i : Nat) : UseKind → UseSites → UseSites
  | .fieldStore => (·.addFieldStore i)
  | .fieldLoad => (·.addFieldLoad i)
  | .elementStore => (·.addElementStore i)
  | .elementLoad => (·.addElementLoad i)
  | .invoke => (·.addInvoke i)

/-- The variable that a statement goes through, and how. -/
def Stmt.through? : Stmt → Option (UseKind × VarId)
  | .assign _ (.field (some base) _) => some (.fieldLoad, base)
  | .assign _ (.element base _) => some (.elementLoad, base)
  | .store (.field (some base) _) _ => some (.fieldStore, base)
  | .store (.element base _) _ => some (.elementStore, base)
  | .invoke _ call => call.receiver.map (.invoke, ·)
  | _ => none

/-- The statements that go through `v`, by the way in which they do. -/
inductive Stmt.GoesThrough (v : VarId) : UseKind → Stmt → Prop where
  | fieldStore (f : FieldId) (y : VarId) : GoesThrough v .fieldStore (.store (.field (some v) f) y)
  | fieldLoad (x : VarId) (f : FieldId) : GoesThrough v .fieldLoad (.assign x (.field (some v) f))
  | elementStore (i y : VarId) : GoesThrough v .elementStore (.store (.element v i) y)
  | elementLoad (x i : VarId) : GoesThrough v .elementLoad (.assign x (.element v i))
  | invoke (result : Option VarId) (call : Call) (receiver : call.receiver = some v) :
    GoesThrough v .invoke (.invoke result call)

theorem Stmt.through?_eq_some_iff {s : Stmt} {kind : UseKind} {v : VarId} :
    s.through? = some (kind, v) ↔ GoesThrough v kind s := by
  constructor
  · intro h
    unfold through? at h
    split at h
    · cases h
      exact .fieldLoad _ _
    · cases h
      exact .elementLoad _ _
    · cases h
      exact .fieldStore _ _
    · cases h
      exact .elementStore _ _
    · next result call =>
      obtain ⟨w, hw, h⟩ := Option.map_eq_some_iff.mp h
      cases h
      exact .invoke result call hw
    · cases h
  · rintro (_ | _ | _ | _ | ⟨result, call, receiver⟩)
    case invoke => exact congrArg (Option.map (Prod.mk UseKind.invoke)) receiver
    all_goals rfl

namespace UseIndex

theorem addStmt_eq (index : UseIndex) (i : Nat) (s : Stmt) :
    index.addStmt i s = match s.through? with
      | some (kind, v) => index.record v (UseSites.add i kind)
      | none => index := by
  cases s with
  | assign x e =>
    cases e with
    | field base f => cases base <;> rfl
    | _ => rfl
  | store place y =>
    cases place with
    | field base f => cases base <;> rfl
    | element base index => rfl
  | invoke result call =>
    obtain ⟨kind, target, receiver, args⟩ := call
    cases receiver <;> rfl
  | _ => rfl

/-- The recorded statements of one variable and one way of use. -/
def sites (index : UseIndex) (v : VarId) (kind : UseKind) : List Nat :=
  ((index.get? v).getD .empty).of kind

theorem of_add (uses : UseSites) (i : Nat) (kind k : UseKind) :
    (UseSites.add i kind uses).of k = uses.of k ++ if kind = k then [i] else [] := by
  cases kind <;> cases k <;> simp [UseSites.add, UseSites.of, UseSites.addFieldStore,
    UseSites.addFieldLoad, UseSites.addElementStore, UseSites.addElementLoad, UseSites.addInvoke]

theorem sites_addStmt (index : UseIndex) (i : Nat) (s : Stmt) (v : VarId) (kind : UseKind) :
    (index.addStmt i s).sites v kind =
      index.sites v kind ++ if s.through? = some (kind, v) then [i] else [] := by
  rw [addStmt_eq]
  cases h : s.through? with
  | none => simp
  | some use =>
    obtain ⟨k, w⟩ := use
    simp only [sites, record, HandleMap.get?_insert]
    by_cases hv : w = v
    · subst hv
      simp [of_add]
    · have hi : ¬ Handle.index w = Handle.index v := fun e => hv (Handle.index_injective e)
      simp [hi, hv]

/-- The sites of one variable and one way of use are the places of the statements that go through it
in this way. -/
theorem sites_addFrom (stmts : List Stmt) (index : UseIndex) (n : Nat) (v : VarId)
    (kind : UseKind) : (index.addFrom n stmts).sites v kind = index.sites v kind ++
      ((stmts.zipIdx n).filter fun e => e.1.through? = some (kind, v)).map (·.2) := by
  induction stmts generalizing index n with
  | nil => simp [addFrom]
  | cons s rest ih =>
    rw [addFrom, ih, sites_addStmt, List.append_assoc, List.zipIdx_cons, List.filter_cons]
    split <;> simp_all

theorem sites_empty (v : VarId) (kind : UseKind) : sites HandleMap.empty v kind = [] := by
  cases kind <;> rfl

theorem sites_ofStmts (stmts : List Stmt) (v : VarId) (kind : UseKind) :
    (ofStmts stmts).sites v kind =
      (stmts.zipIdx.filter fun e => e.1.through? = some (kind, v)).map (·.2) := by
  rw [ofStmts, sites_addFrom, sites_empty, List.nil_append]

theorem mem_sites_ofStmts {stmts : List Stmt} {i : Nat} {v : VarId} {kind : UseKind} :
    i ∈ (ofStmts stmts).sites v kind ↔ ∃ s, stmts[i]? = some s ∧ s.through? = some (kind, v) := by
  simp only [sites_ofStmts, List.mem_map, List.mem_filter, decide_eq_true_eq, Prod.exists,
    List.mem_zipIdx_iff_getElem?]
  exact ⟨fun ⟨s, _, ⟨hs, ht⟩, hi⟩ => hi ▸ ⟨s, hs, ht⟩, fun ⟨s, hs, ht⟩ => ⟨s, i, ⟨hs, ht⟩, rfl⟩⟩

/-- Sites are some of the places of the statements, in their order. -/
theorem sites_sublist (stmts : List Stmt) (v : VarId) (kind : UseKind) :
    ((ofStmts stmts).sites v kind).Sublist (List.range' 0 stmts.length) := by
  rw [sites_ofStmts, ← List.zipIdx_map_snd 0 stmts]
  exact List.filter_sublist.map _

/-- No entry is without sites. -/
def Occupied (index : UseIndex) : Prop :=
  ∀ v uses, index.get? v = some uses → ∃ kind, uses.of kind ≠ []

theorem Occupied.addStmt {index : UseIndex} (h : index.Occupied) (i : Nat) (s : Stmt) :
    (index.addStmt i s).Occupied := by
  rw [addStmt_eq]
  cases ht : s.through? with
  | none => exact h
  | some use =>
    obtain ⟨kind, w⟩ := use
    intro v uses hv
    dsimp only at hv
    rw [record, HandleMap.get?_insert] at hv
    split at hv
    · cases hv
      exact ⟨kind, by simp [of_add]⟩
    · exact h v uses hv

theorem occupied_ofStmts (stmts : List Stmt) : (ofStmts stmts).Occupied := by
  have hrun : ∀ (index : UseIndex) (n : Nat), index.Occupied → (index.addFrom n stmts).Occupied := by
    induction stmts with
    | nil => exact fun _ _ h => h
    | cons s rest ih => exact fun index n h => ih _ _ (h.addStmt n s)
  exact hrun _ _ nofun

end UseIndex

namespace Body

variable {b : Body} {v : VarId}

theorem mem_usesOf {uses : UseSites} (h : b.usesOf v = some uses) {i : Nat} {kind : UseKind} :
    i ∈ uses.of kind ↔ ∃ s, b.stmt? i = some s ∧ s.through? = some (kind, v) := by
  have hi : i ∈ (UseIndex.ofStmts b.stmts.toList).sites v kind ↔ _ := UseIndex.mem_sites_ofStmts
  have hu : (UseIndex.ofStmts b.stmts.toList).get? v = some uses := h
  simpa only [UseIndex.sites, hu, Option.getD_some, Array.getElem?_toList, stmt?] using hi

/-- A variable that a statement goes through has an entry. -/
theorem usesOf_isSome {i : Nat} {s : Stmt} {kind : UseKind} (hs : b.stmt? i = some s)
    (ht : s.through? = some (kind, v)) : ∃ uses, b.usesOf v = some uses := by
  cases h : b.usesOf v with
  | some uses => exact ⟨uses, rfl⟩
  | none =>
    have hi : i ∈ (UseIndex.ofStmts b.stmts.toList).sites v kind :=
      UseIndex.mem_sites_ofStmts.mpr ⟨s, by simpa [stmt?] using hs, ht⟩
    have hu : (UseIndex.ofStmts b.stmts.toList).get? v = none := h
    rw [UseIndex.sites, hu] at hi
    cases kind <;> cases hi

theorem length_usesOf_le {uses : UseSites} (h : b.usesOf v = some uses) (kind : UseKind) :
    (uses.of kind).length ≤ b.size := by
  have hlen := (UseIndex.sites_sublist b.stmts.toList v kind).length_le
  have hu : (UseIndex.ofStmts b.stmts.toList).get? v = some uses := h
  simpa [UseIndex.sites, hu, size] using hlen

theorem mem_foldl_addReturn (stmts : List Stmt) (seen : List VarId) :
    v ∈ stmts.foldl addReturn seen ↔ v ∈ seen ∨ .ret (some v) ∈ stmts := by
  induction stmts generalizing seen with
  | nil => simp
  | cons s rest ih =>
    rw [List.foldl_cons, ih, List.mem_cons, ← or_assoc]
    refine or_congr_left ?_
    unfold addReturn
    split
    · next w =>
      split
      · next hw => simpa using fun h : v = w => h ▸ hw
      · simp
    · next hs =>
      exact ⟨.inl, fun h => h.resolve_right fun e => hs v e.symm⟩

theorem mem_returnVars : v ∈ b.returnVars ↔ ∃ i, b.stmt? i = some (.ret (some v)) := by
  have hnil : v ∉ (#[] : Array VarId).toList := List.not_mem_nil
  rw [returnVars, ← Array.foldl_toList, mem_foldl_addReturn, or_iff_right hnil,
    Array.mem_toList_iff]
  exact Array.mem_iff_getElem?

/-- The place of the first return of `v`. -/
def FirstReturn (b : Body) (v : VarId) (i : Nat) : Prop :=
  b.stmt? i = some (.ret (some v)) ∧ ∀ j < i, b.stmt? j ≠ some (.ret (some v))

theorem exists_firstReturn {i : Nat} (h : b.stmt? i = some (.ret (some v))) :
    ∃ j, b.FirstReturn v j := by
  induction i using Nat.strongRecOn with
  | ind i ih =>
    by_cases hearlier : ∃ j < i, b.stmt? j = some (.ret (some v))
    · obtain ⟨j, hj, hv⟩ := hearlier
      exact ih j hj hv
    · exact ⟨i, h, fun j hj hv => hearlier ⟨j, hj, hv⟩⟩

/-- A variable is added to those seen at its first return, behind all others. -/
theorem ordered_foldl_addReturn (stmts : List Stmt) :
    (stmts.foldl addReturn []).Pairwise fun v w =>
      ∃ i : Nat, stmts[i]? = some (Stmt.ret (some v)) ∧
        ∀ j ≤ i, stmts[j]? ≠ some (Stmt.ret (some w)) := by
  induction stmts using List.reverseRecOn with
  | nil => exact List.Pairwise.nil
  | append_singleton stmts s ih =>
    have hearlier : ∀ {i : Nat} {v}, stmts[i]? = some (Stmt.ret (some v)) →
        i < stmts.length ∧ (stmts ++ [s])[i]? = some (Stmt.ret (some v)) := by
      intro i v hv
      have hlt := (List.getElem?_eq_some_iff.mp hv).1
      exact ⟨hlt, by rw [List.getElem?_append_left hlt, hv]⟩
    have hold : (stmts.foldl addReturn []).Pairwise fun v w => ∃ i : Nat,
        (stmts ++ [s])[i]? = some (Stmt.ret (some v)) ∧
          ∀ j ≤ i, (stmts ++ [s])[j]? ≠ some (Stmt.ret (some w)) := by
      refine ih.imp fun ⟨i, hv, hw⟩ => ?_
      obtain ⟨hlt, hv⟩ := hearlier hv
      exact ⟨i, hv, fun j hj => by
        rw [List.getElem?_append_left (Nat.lt_of_le_of_lt hj hlt)]
        exact hw j hj⟩
    rw [List.foldl_append, List.foldl_cons, List.foldl_nil]
    unfold addReturn
    split
    · next w =>
      split
      · exact hold
      · next hnew =>
        refine List.pairwise_append.mpr ⟨hold, List.pairwise_singleton _ _, fun v hv u hu => ?_⟩
        obtain rfl := List.mem_singleton.mp hu
        obtain ⟨i, hi⟩ := List.mem_iff_getElem?.mp
          (((mem_foldl_addReturn stmts []).mp hv).resolve_left List.not_mem_nil)
        obtain ⟨hlt, hi⟩ := hearlier hi
        refine ⟨i, hi, fun j hj hret => ?_⟩
        rw [List.getElem?_append_left (Nat.lt_of_le_of_lt hj hlt)] at hret
        exact hnew ((mem_foldl_addReturn stmts []).mpr (.inr (List.mem_of_getElem? hret)))
    · exact hold

theorem ordered_returnVars (b : Body) : b.returnVars.Pairwise fun v w =>
    ∃ i, b.stmt? i = some (.ret (some v)) ∧ ∀ j ≤ i, b.stmt? j ≠ some (.ret (some w)) := by
  have hordered := ordered_foldl_addReturn b.stmts.toList
  simp only [Array.getElem?_toList, Array.foldl_toList] at hordered
  exact hordered

/-- What the use index and the returned variables tell about the statements of a body. -/
structure Exact (b : Body) : Prop where
  ascending : ∀ v kind, (b.useIndex.sites v kind).Pairwise (· < ·)
  mem_sites : ∀ v kind i, i ∈ b.useIndex.sites v kind ↔
    ∃ s, b.stmt? i = some s ∧ s.GoesThrough v kind
  usesOf_none : ∀ v, b.usesOf v = none ↔ ∀ kind, b.useIndex.sites v kind = []
  nodup_returns : b.returnVars.Nodup
  mem_returns : ∀ v, v ∈ b.returnVars ↔ ∃ i, b.FirstReturn v i
  first_returns : b.returnVars.Pairwise fun v w =>
    ∀ i j, b.FirstReturn v i → b.FirstReturn w j → i < j

theorem exact_uses_and_returns (b : Body) : b.Exact where
  ascending v kind :=
    (List.pairwise_lt_range' 1).sublist (UseIndex.sites_sublist b.stmts.toList v kind)
  mem_sites v kind i := by
    have hi : i ∈ b.useIndex.sites v kind ↔ _ := UseIndex.mem_sites_ofStmts
    simpa only [Stmt.through?_eq_some_iff, Array.getElem?_toList, stmt?] using hi
  usesOf_none v := by
    constructor
    · intro hnone kind
      have hempty : b.useIndex.sites v kind = UseSites.empty.of kind := by
        rw [UseIndex.sites, show b.useIndex.get? v = none from hnone, Option.getD_none]
      rw [hempty]
      cases kind <;> rfl
    · intro hempty
      refine Option.eq_none_iff_forall_ne_some.mpr fun uses huses => ?_
      obtain ⟨kind, hkind⟩ := UseIndex.occupied_ofStmts b.stmts.toList v uses huses
      have hsites : b.useIndex.sites v kind = uses.of kind := by
        rw [UseIndex.sites, show b.useIndex.get? v = some uses from huses, Option.getD_some]
      exact hkind (hsites ▸ hempty kind)
  nodup_returns := b.ordered_returnVars.imp fun ⟨i, hv, hw⟩ => by
    rintro rfl
    exact hw i (Nat.le_refl i) hv
  mem_returns _ := mem_returnVars.trans
    ⟨fun ⟨_, hi⟩ => exists_firstReturn hi, fun ⟨i, hi, _⟩ => ⟨i, hi⟩⟩
  first_returns := b.ordered_returnVars.imp fun ⟨k, hv, hw⟩ i j hi hj => by
    have hik : i ≤ k := Nat.le_of_not_lt fun hki => hi.2 k hki hv
    have hkj : k < j := Nat.lt_of_not_le fun hjk => hw j hjk hj.1
    exact Nat.lt_of_le_of_lt hik hkj

end Body
end ProgramAnalysis
