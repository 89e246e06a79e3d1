import ProgramAnalysis.Proofs.Yaml.Document
import ProgramAnalysis.Yaml.Record

/-! Reading a record from the items that lie ahead: each reader takes those of its field and leaves
the ones behind them. -/
namespace ProgramAnalysis.Yaml.Document

variable {d : Document} {place : Nat} {xs : List Item} {path names seen : List String}
  {y : Schema} {style : Style} {text name : String} {α : Type}

/-- The items from a place on. -/
def Ahead (d : Document) (place : Nat) (xs : List Item) : Prop := d.items.toList.drop place = xs

theorem Ahead.length_le (h : d.Ahead place xs) : xs.length ≤ d.items.size := by
  rw [← h, List.length_drop, Array.length_toList]
  omega

theorem Ahead.tail {item : Item} (h : d.Ahead place (item :: xs)) : d.Ahead (place + 1) xs := by
  rw [Ahead, ← List.drop_drop, h]
  rfl

theorem Ahead.find {item : Item} (h : d.Ahead place (item :: xs)) (hjump : ∀ n, item ≠ .jump n) :
    d.find place = .ok ⟨item, place + 1, false⟩ := by
  have hitem : d.items[place]? = some item := by
    rw [← Array.getElem?_toList, ← List.head?_drop, h]
    rfl
  rw [Document.find, hitem]
  cases item with
  | jump n => exact absurd rfl (hjump n)
  | _ => rfl

/-! ### Scalars -/

theorem readScalar_ahead {expected : String} {value? : Option String → Style → String → Option α}
    {a : α} (h : d.Ahead place (.scalar none style text :: xs))
    (hvalue : value? none style text = some a) :
    d.readScalar path expected value? place = .ok (a, place + 1) := by
  rw [readScalar, h.find (by simp)]
  simp [bind, Except.bind, hvalue, pure, Except.pure]

theorem readBool_ahead {b : Bool} (h : d.Ahead place (.scalar none .plain text :: xs))
    (hbool : y.bool? text = some b) : d.readBool y path place = .ok (b, place + 1) :=
  readScalar_ahead h hbool

theorem readNumber_ahead {n : UInt32} (h : d.Ahead place (.scalar none .plain text :: xs))
    (hnumber : y.number? text = some n.toNat) :
    d.readNumber y path place = .ok (n.toNat, place + 1) :=
  readScalar_ahead h (by simp [isResolved, hnumber, n.toNat_lt])

theorem readText_ahead (h : d.Ahead place (.scalar none style text :: xs)) :
    d.readText path place = .ok (text, place + 1) :=
  readScalar_ahead h rfl

theorem readOption_ahead {outer : List String} {read : Nat → Except Problem (Placed α)} {a : α}
    (h : d.Ahead place (.scalar none style text :: xs))
    (htext : style = .plain → y.isNone text = false) (hread : read place = .ok (a, place + 1)) :
    d.readOption y outer read place = .ok (some a, place + 1) := by
  have habsent : isAbsent y outer (.scalar none style text) = .ok false := by
    cases style with
    | plain => exact congrArg Except.ok (htext rfl)
    | _ => rfl
  rw [readOption, h.find (by simp)]
  simp [bind, Except.bind, habsent, hread, pure, Except.pure]

theorem readVariant_ahead {outer : List String} {variants : List α} {key : α → String} {a : α}
    (h : d.Ahead place (.scalar none style (key a) :: xs))
    (hfind : variants.find? (fun b => key b == key a) = some a) :
    d.readVariant y outer path variants key place = .ok (a, place + 1) := by
  rw [readVariant, h.find (by simp)]
  simp [bind, Except.bind, localTag?, hfind, pure, Except.pure]

/-! ### Records -/

variable {read : α → String → List String → Nat → Except Problem (Placed α)} {a b : α}

theorem readFields_end (h : d.Ahead place (.mappingEnd :: xs)) (fuel : Nat) :
    d.readFields path names read (fuel + 1) seen a place = .ok (a, place + 1) := by
  rw [readFields, h.find (by simp)]
  rfl

theorem readFields_field (b : α) (next : Nat) {fuel : Nat}
    (h : d.Ahead place (.scalar none style name :: xs))
    (hname : name ∈ names) (hseen : name ∉ seen)
    (hread : read a name (path ++ [name]) (place + 1) = .ok (b, next)) :
    d.readFields path names read (fuel + 1) seen a place =
      d.readFields path names read fuel (name :: seen) b next := by
  rw [readFields, h.find (by simp)]
  simp [bind, Except.bind, hname, hseen, hread]

theorem readRecord_ahead {expected : String} {stop : Nat}
    (h : d.Ahead place (.mappingStart none :: xs))
    (hread : d.readFields path names read (d.items.size + 1) [] a (place + 1) = .ok (b, stop)) :
    d.readRecord path expected names a read place = .ok (b, stop) := by
  rw [readRecord, h.find (by simp)]
  simp [bind, Except.bind, hread, pure, Except.pure, Found.leave]

/-- A record of which the document has one field, with a scalar. -/
theorem readRecord_single {expected : String}
    {style' : Style} (h : d.Ahead place (.mappingStart none :: .scalar none style' name ::
      .scalar none style text :: .mappingEnd :: xs))
    (hname : name ∈ names) (hread : read a name (path ++ [name]) (place + 2) = .ok (b, place + 3)) :
    ∃ next, d.readRecord path expected names a read place = .ok (b, next) ∧ d.Ahead next xs := by
  obtain ⟨k, hk⟩ := Nat.exists_eq_add_of_le' h.length_le
  refine ⟨place + 4, readRecord_ahead h ?_, h.tail.tail.tail.tail⟩
  rw [hk, List.length_cons, ← Nat.add_assoc,
    readFields_field b (place + 3) h.tail hname List.not_mem_nil hread]
  exact readFields_end h.tail.tail.tail _

end ProgramAnalysis.Yaml.Document
