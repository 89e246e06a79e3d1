import ProgramAnalysis.Constant.StoredFact
import ProgramAnalysis.Proofs.Constant.Lattice

/-! The stored facts that the operations can make are the facts: none has an entry for `undef`, so
equal values everywhere make them equal, and they inherit the semilattice of facts. -/
namespace ProgramAnalysis

variable {f g : Fact} {r s t : StoredFact} {v w : VarId} {x : Value}

/-- The fact as a map from variables to values. -/
def Fact.stored (f : Fact) : StoredFact :=
  ⟨f.toList, List.pairwise_map.mpr f.known.ascending⟩

/-! ### Meets of many facts -/

theorem Fact.meet_le_iff {u : Fact} :
    (f.meet g).meet u = u ↔ f.meet u = u ∧ g.meet u = u := by
  constructor
  · intro h
    constructor
    · rw [← h, ← meet_assoc, ← meet_assoc, meet_self]
    · rw [← h, ← meet_assoc, ← meet_assoc, meet_comm g f, meet_assoc f, meet_self]
  · intro ⟨hf, hg⟩
    rw [meet_assoc, hg, hf]

/-- Facts taken into another one by one stay below what is above each of them. -/
theorem Fact.foldl_meet_le_iff {fs : List Fact} {u : Fact} :
    (fs.foldl (fun t f => f.meet t) g).meet u = u ↔ g.meet u = u ∧ ∀ f ∈ fs, f.meet u = u := by
  induction fs generalizing g with
  | nil => simp
  | cons f fs ih => rw [List.foldl_cons, ih, meet_le_iff, List.forall_mem_cons, and_assoc,
      and_left_comm]

theorem Fact.foldl_meet_congr {fs gs : List Fact} (h : ∀ f, f ∈ fs ↔ f ∈ gs) :
    fs.foldl (fun t f => f.meet t) g = gs.foldl (fun t f => f.meet t) g := by
  have hle : ∀ {fs gs : List Fact}, (∀ f, f ∈ fs ↔ f ∈ gs) →
      (fs.foldl (fun t f => f.meet t) g).meet (gs.foldl (fun t f => f.meet t) g) =
        gs.foldl (fun t f => f.meet t) g := by
    intro fs gs h
    obtain ⟨hstart, hmembers⟩ := foldl_meet_le_iff.mp (meet_self (gs.foldl (fun t f => f.meet t) g))
    exact foldl_meet_le_iff.mpr ⟨hstart, fun f hf => hmembers f ((h f).mp hf)⟩
  rw [← hle h, meet_comm, hle fun f => (h f).symm]

namespace StoredFact

/-! ### Lookups -/

theorem ext (h : ∀ v, s.values.get? v = t.values.get? v) : s = t := by
  obtain ⟨values⟩ := s
  obtain ⟨values'⟩ := t
  exact congrArg StoredFact.mk (HandleMap.ext h)

theorem get_eq_getD : s.get v = (s.values.get? v).getD .undef := by
  unfold get
  cases s.values.get? v <;> rfl

theorem get?_update (s : StoredFact) (v w : VarId) (x : Value) : (s.update v x).2.values.get? w =
    if v = w then (if x = .undef then none else some x) else s.values.get? w := by
  unfold update
  by_cases hv : v = w
  · cases x <;> simp [Value.isUndef, HandleMap.get?_erase, hv]
  · cases x <;>
      simp [Value.isUndef, HandleMap.get?_erase, HandleMap.get?_insert, Fact.index_eq_iff, hv]

theorem get_update (s : StoredFact) (v w : VarId) (x : Value) :
    (s.update v x).2.get w = if v = w then x else s.get w := by
  rw [get_eq_getD, get?_update]
  by_cases hv : v = w
  · by_cases hx : x = .undef <;> simp [hv, hx]
  · rw [if_neg hv, if_neg hv, get_eq_getD]

/-! ### The stored form of a fact -/

theorem get?_stored : f.stored.values.get? v = some x ↔ f.get v = x ∧ x ≠ .undef := by
  rw [← HandleMap.mem_entries_iff]
  exact Fact.mem_toList

@[simp] theorem get_stored (f : Fact) (v : VarId) : f.stored.get v = f.get v := by
  rw [get_eq_getD]
  cases h : f.stored.values.get? v with
  | some x => exact (get?_stored.mp h).1.symm
  | none =>
    by_cases hv : f.get v = .undef
    · exact hv.symm
    · have hsome := get?_stored.mpr ⟨rfl, hv⟩
      rw [h] at hsome
      cases hsome

theorem stored_inj : f.stored = g.stored ↔ f = g := by
  refine ⟨fun h => Fact.ext fun v => ?_, congrArg _⟩
  rw [← get_stored, h, get_stored]

/-- A map without an entry for `undef` is the stored form of the fact that gives its values. -/
theorem eq_stored (hclean : ∀ v, s.values.get? v ≠ some .undef) (h : ∀ v, s.get v = f.get v) :
    s = f.stored := by
  refine ext fun v => Option.ext fun x => ?_
  rw [get?_stored, ← h v, get_eq_getD]
  cases hv : s.values.get? v with
  | none => simp [eq_comm]
  | some y =>
    have hy : y ≠ .undef := fun hy => hclean v (hy ▸ hv)
    simp only [Option.some.injEq, Option.getD_some]
    exact ⟨fun heq => ⟨heq, heq ▸ hy⟩, fun hx => hx.1⟩

/-! ### Each operation, on stored forms -/

theorem update_stored (f : Fact) (v : VarId) (x : Value) :
    (f.stored.update v x).2 = (f.set v x).stored := by
  refine eq_stored (fun w => ?_) fun w => ?_
  · rw [get?_update]
    by_cases hv : v = w
    · by_cases hx : x = .undef <;> simp [hv, hx]
    · rw [if_neg hv]
      exact fun hw => (get?_stored.mp hw).2 rfl
  · rw [get_update, get_stored, Fact.get_set]

theorem remove_stored (f : Fact) (v : VarId) : f.stored.remove v = (f.erase v).stored := by
  have herase : f.erase v = f.set v .undef := rfl
  rw [herase, ← update_stored]
  rfl

theorem foldl_update_stored (entries : List (VarId × Value)) (f : Fact) :
    entries.foldl (fun s e => (s.update e.1 e.2).2) f.stored =
      (entries.foldl (fun f e => f.set e.1 e.2) f).stored := by
  induction entries generalizing f with
  | nil => rfl
  | cons e entries ih => rw [List.foldl_cons, List.foldl_cons, update_stored, ih]

theorem collect_eq (entries : List (VarId × Value)) :
    collect entries = (Fact.ofList entries).stored := foldl_update_stored entries .empty

theorem copyFrom_snd (s t : StoredFact) : (s.copyFrom t).2 = t := by
  unfold copyFrom
  split
  · next h => exact h
  · rfl

theorem copyFrom_fst (s t : StoredFact) : (s.copyFrom t).1 = true ↔ s ≠ t := by
  unfold copyFrom
  by_cases h : s = t <;> simp [h]

theorem meetEntries_stored (entries : List (VarId × Value)) (g : Fact) :
    meetEntries entries g.stored =
      (entries.foldl (fun t e => t.set e.1 (e.2.meet (t.get e.1))) g).stored := by
  unfold meetEntries
  refine List.foldl_hom Fact.stored fun t e => ?_
  rw [get_stored, update_stored]

theorem meetInto_stored (f g : Fact) : f.stored.meetInto g.stored = (f.meet g).stored :=
  meetEntries_stored _ _

/-- What the operations can make. -/
inductive Made : StoredFact → Prop
  | empty : Made empty
  | collect (entries : List (VarId × Value)) : Made (collect entries)
  | update {s : StoredFact} (hs : Made s) (v : VarId) (x : Value) : Made (s.update v x).2
  | remove {s : StoredFact} (hs : Made s) (v : VarId) : Made (s.remove v)
  | copyFrom {s t : StoredFact} (hs : Made s) (ht : Made t) : Made (s.copyFrom t).2
  | meetInto {s t : StoredFact} (hs : Made s) (ht : Made t) : Made (s.meetInto t)

/-- The operations make nothing but stored forms of facts. -/
theorem Made.exists_stored (h : s.Made) : ∃ f : Fact, s = f.stored := by
  induction h with
  | empty => exact ⟨.empty, rfl⟩
  | collect entries => exact ⟨_, collect_eq entries⟩
  | update _ v x ih =>
    obtain ⟨f, rfl⟩ := ih
    exact ⟨_, update_stored f v x⟩
  | remove _ v ih =>
    obtain ⟨f, rfl⟩ := ih
    exact ⟨_, remove_stored f v⟩
  | copyFrom _ _ _ ih =>
    obtain ⟨g, rfl⟩ := ih
    exact ⟨g, copyFrom_snd _ _⟩
  | meetInto _ _ ihs iht =>
    obtain ⟨f, rfl⟩ := ihs
    obtain ⟨g, rfl⟩ := iht
    exact ⟨_, meetInto_stored f g⟩

/-! ### What the operations make -/

theorem not_mem_undef (h : s.Made) : (v, .undef) ∉ s.values.toList := by
  obtain ⟨f, rfl⟩ := h.exists_stored
  exact fun hmem => (Fact.mem_toList.mp hmem).2 rfl

theorem eq_iff (hs : s.Made) (ht : t.Made) : s = t ↔ ∀ v, s.get v = t.get v := by
  obtain ⟨f, rfl⟩ := hs.exists_stored
  obtain ⟨g, rfl⟩ := ht.exists_stored
  refine ⟨fun h v => h ▸ rfl, fun h => stored_inj.mpr (Fact.ext fun v => ?_)⟩
  rw [← get_stored, h, get_stored]

theorem update_fst (s : StoredFact) (v : VarId) (x : Value) :
    (s.update v x).1 = true ↔ (s.update v x).2.get v ≠ s.get v := by
  rw [get_update, if_pos rfl, ne_comm]
  exact bne_iff_ne

/-- The order in which the entries come does not show. -/
theorem meetEntries_perm (hs : s.Made) (ht : t.Made) {entries : List (VarId × Value)}
    (h : entries.Perm s.values.toList) : meetEntries entries t = s.meetInto t := by
  obtain ⟨f, rfl⟩ := hs.exists_stored
  obtain ⟨g, rfl⟩ := ht.exists_stored
  rw [meetEntries_stored, meetInto_stored, stored_inj]
  refine Fact.ext fun v => ?_
  rw [Fact.get_foldl_meet_of_perm h, Fact.get_meet]

theorem get_meetInto (hs : s.Made) (ht : t.Made) (v : VarId) :
    (s.meetInto t).get v = (s.get v).meet (t.get v) := by
  obtain ⟨f, rfl⟩ := hs.exists_stored
  obtain ⟨g, rfl⟩ := ht.exists_stored
  rw [meetInto_stored, get_stored, get_stored, get_stored, Fact.get_meet]

theorem foldl_meetInto_stored (fs : List Fact) (g : Fact) :
    (fs.map Fact.stored).foldl (fun t s => s.meetInto t) g.stored =
      (fs.foldl (fun t f => f.meet t) g).stored := by
  induction fs generalizing g with
  | nil => rfl
  | cons f fs ih => rw [List.map_cons, List.foldl_cons, List.foldl_cons, meetInto_stored, ih]

theorem exists_map_stored {ss : List StoredFact} (h : ∀ s ∈ ss, s.Made) :
    ∃ fs : List Fact, ss = fs.map Fact.stored := by
  induction ss with
  | nil => exact ⟨[], rfl⟩
  | cons s ss ih =>
    obtain ⟨hs, hss⟩ := List.forall_mem_cons.mp h
    obtain ⟨f, rfl⟩ := hs.exists_stored
    obtain ⟨fs, rfl⟩ := ih hss
    exact ⟨f :: fs, rfl⟩

/-- Neither the order nor the repetition of facts shows in their meet. -/
theorem foldl_meetInto_congr (hr : r.Made) {ss ts : List StoredFact} (hss : ∀ s ∈ ss, s.Made)
    (h : ∀ s, s ∈ ss ↔ s ∈ ts) :
    ss.foldl (fun t s => s.meetInto t) r = ts.foldl (fun t s => s.meetInto t) r := by
  obtain ⟨g, rfl⟩ := hr.exists_stored
  obtain ⟨fs, rfl⟩ := exists_map_stored hss
  obtain ⟨gs, rfl⟩ := exists_map_stored fun s hs => hss s ((h s).mpr hs)
  have hmem : ∀ f, f ∈ fs ↔ f ∈ gs := by
    intro f
    have hf := h f.stored
    simpa [stored_inj] using hf
  rw [foldl_meetInto_stored, foldl_meetInto_stored, Fact.foldl_meet_congr hmem]

/-- Facts have no entry for `undef`, so they are told apart by what they give. Updates and copies
tell truly whether they changed something, and facts meet variable by variable, whatever the order
of the entries; under this meet they are a semilattice with the empty fact at the bottom. -/
theorem made_semilattice (hr : r.Made) (hs : s.Made) (ht : t.Made) :
    (∀ v, (v, .undef) ∉ s.values.toList) ∧
    (s = t ↔ ∀ v, s.get v = t.get v) ∧
    (∀ v x, ((s.update v x).1 = true ↔ (s.update v x).2.get v ≠ s.get v) ∧
      (s.update v x).2.get v = x ∧ ∀ w, w ≠ v → (s.update v x).2.get w = s.get w) ∧
    ((s.copyFrom t).1 = true ↔ s ≠ t) ∧ (s.copyFrom t).2 = t ∧
    (∀ entries, entries.Perm s.values.toList → meetEntries entries t = s.meetInto t) ∧
    (∀ v, (s.meetInto t).get v = (s.get v).meet (t.get v)) ∧
    (r.meetInto s).meetInto t = r.meetInto (s.meetInto t) ∧
    s.meetInto t = t.meetInto s ∧
    s.meetInto s = s ∧
    empty.meetInto s = s ∧ s.meetInto empty = s ∧
    ∀ ss ts : List StoredFact, (∀ u ∈ ss, u.Made) → (∀ u, u ∈ ss ↔ u ∈ ts) →
      ss.foldl (fun t u => u.meetInto t) r = ts.foldl (fun t u => u.meetInto t) r := by
  refine ⟨fun _ => not_mem_undef hs, eq_iff hs ht, fun v x => ⟨update_fst s v x, ?_, ?_⟩,
    copyFrom_fst s t, copyFrom_snd s t, fun _ => meetEntries_perm hs ht, get_meetInto hs ht,
    ?_, ?_, ?_, rfl, ?_, fun ss ts => foldl_meetInto_congr hr⟩
  · rw [get_update, if_pos rfl]
  · intro w hw
    rw [get_update, if_neg (Ne.symm hw)]
  all_goals
    obtain ⟨e, rfl⟩ := hr.exists_stored
    obtain ⟨f, rfl⟩ := hs.exists_stored
    obtain ⟨g, rfl⟩ := ht.exists_stored
  · simp only [meetInto_stored, Fact.meet_assoc]
  · rw [meetInto_stored, meetInto_stored, Fact.meet_comm]
  · rw [meetInto_stored, Fact.meet_self]
  · exact (meetInto_stored f .empty).trans (by rw [Fact.meet_comm, Fact.empty_meet])

/-- Facts at the ends of two branches. -/
def thenFact : StoredFact := collect [(⟨0⟩, .constant 1), (⟨1⟩, .constant 2), (⟨2⟩, .undef)]

def elseFact : StoredFact := ((collect [(⟨0⟩, .constant 1), (⟨1⟩, .constant 3)]).update ⟨3⟩ .nac).2

theorem made_semilattice_branches :
    thenFact.Made ∧ elseFact.Made ∧ (⟨2⟩, .undef) ∉ thenFact.values.toList ∧
      (elseFact.update ⟨3⟩ .undef).1 = true ∧ (elseFact.update ⟨3⟩ .nac).1 = false ∧
      (thenFact.meetInto elseFact).get ⟨0⟩ = .constant 1 ∧
      (thenFact.meetInto elseFact).get ⟨1⟩ = .nac ∧
      [thenFact, elseFact, thenFact].foldl (fun t u => u.meetInto t) .empty =
        [elseFact, thenFact].foldl (fun t u => u.meetInto t) .empty := by
  have hthen : thenFact.Made := .collect _
  have helse : elseFact.Made := .update (.collect _) _ _
  obtain ⟨hclean, -, -, -, -, -, hget, -, -, -, -, -, hfold⟩ :=
    made_semilattice .empty hthen helse
  obtain ⟨-, -, hupdate, -⟩ := made_semilattice .empty helse hthen
  refine ⟨hthen, helse, hclean _, (hupdate _ _).1.mpr (by decide), ?_, ?_, ?_, hfold _ _ ?_ ?_⟩
  · exact Bool.eq_false_iff.mpr fun h => (hupdate _ _).1.mp h (by decide)
  · rw [hget]
    decide
  · rw [hget]
    decide
  · simp [hthen, helse]
  · simp [or_comm]

end StoredFact
end ProgramAnalysis
