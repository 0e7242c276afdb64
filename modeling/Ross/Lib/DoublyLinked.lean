import Mathlib.Data.List.Nodup
import Mathlib.Logic.Function.Basic

/-!
# Doubly linked lists

Which cells a pair of link maps chains up, and what the writes of a link do to the
chain.  A cell put in front, a list put in front of another one and a cut are made of
these writes.
-/

namespace DoublyLinked

variable {α : Type*}

/-- The two links of every cell. -/
@[ext] structure Links (α : Type*) where
  prev : α → Option α
  next : α → Option α

/-- The cells of the list are linked in its order, between `p` and `n`. -/
def Segment (σ : Links α) : Option α → List α → Option α → Prop
  | _, [], _ => True
  | p, a :: l, n => σ.prev a = p ∧ σ.next a = l.head?.or n ∧ Segment σ (some a) l n

instance decidableSegment [DecidableEq α] (σ : Links α) :
    (p : Option α) → (l : List α) → (n : Option α) → Decidable (Segment σ p l n)
  | _, [], _ => inferInstanceAs (Decidable True)
  | p, a :: l, n =>
      have : Decidable (Segment σ (some a) l n) := decidableSegment σ (some a) l n
      inferInstanceAs (Decidable (σ.prev a = p ∧ σ.next a = l.head?.or n ∧
        Segment σ (some a) l n))

variable {σ τ : Links α} {p q n m : Option α} {a b : α} {l l₁ l₂ : List α}

/-- A segment depends on the links of its own cells. -/
theorem Segment.congr (h : Segment σ p l n)
    (hsame : ∀ a ∈ l, τ.prev a = σ.prev a ∧ τ.next a = σ.next a) : Segment τ p l n := by
  induction l generalizing p with
  | nil => trivial
  | cons a l ih =>
      obtain ⟨hp, hn, hl⟩ := h
      obtain ⟨hp', hn'⟩ := hsame a List.mem_cons_self
      exact ⟨hp'.trans hp, hn'.trans hn, ih hl fun b hb => hsame b (List.mem_cons_of_mem a hb)⟩

theorem segment_append : Segment σ p (l₁ ++ l₂) n ↔
    Segment σ p l₁ (l₂.head?.or n) ∧ Segment σ (l₁.getLast?.or p) l₂ n := by
  induction l₁ generalizing p with
  | nil => simp [Segment]
  | cons a l₁ ih =>
      have hhead : (l₁ ++ l₂).head?.or n = l₁.head?.or (l₂.head?.or n) := by
        rw [List.head?_append, Option.or_assoc]
      have hlast : (a :: l₁).getLast?.or p = l₁.getLast?.or (some a) := by
        rw [List.getLast?_cons]
        cases l₁.getLast? <;> rfl
      rw [List.cons_append, Segment, Segment, ih, hhead, hlast]
      tauto

/-- The cell in front of a member. -/
theorem Segment.prev_eq (h : Segment σ p (l₁ ++ a :: l₂) n) : σ.prev a = l₁.getLast?.or p :=
  (segment_append.mp h).2.1

/-- The cell behind a member. -/
theorem Segment.next_eq (h : Segment σ p (l₁ ++ a :: l₂) n) : σ.next a = l₂.head?.or n :=
  (segment_append.mp h).2.2.1

/-! ## Writes -/

section Writes

variable [DecidableEq α]

namespace Links

def setPrev (σ : Links α) (a : α) (p : Option α) : Links α :=
  { σ with prev := Function.update σ.prev a p }

def setNext (σ : Links α) (a : α) (n : Option α) : Links α :=
  { σ with next := Function.update σ.next a n }

end Links

open Links

theorem Segment.setPrev_of_notMem (h : Segment σ p l n) (ha : a ∉ l) (q : Option α) :
    Segment (σ.setPrev a q) p l n :=
  h.congr fun b hb => ⟨Function.update_of_ne (fun heq : b = a => ha (heq ▸ hb)) _ _, rfl⟩

theorem Segment.setNext_of_notMem (h : Segment σ p l n) (ha : a ∉ l) (m : Option α) :
    Segment (σ.setNext a m) p l n :=
  h.congr fun b hb => ⟨rfl, Function.update_of_ne (fun heq : b = a => ha (heq ▸ hb)) _ _⟩

/-- Writing the link in front of the first cell puts the list behind another cell. -/
theorem Segment.setPrev_head (h : Segment σ p (a :: l) n) (ha : a ∉ l) (q : Option α) :
    Segment (σ.setPrev a q) q (a :: l) n := by
  obtain ⟨-, hn, hl⟩ := h
  exact ⟨Function.update_self _ _ _, hn, Segment.setPrev_of_notMem hl ha q⟩

/-- Writing the link behind the last cell puts the list in front of another cell. -/
theorem Segment.setNext_last (h : Segment σ p (l ++ [a]) n) (ha : a ∉ l) (m : Option α) :
    Segment (σ.setNext a m) p (l ++ [a]) m := by
  rw [segment_append] at h ⊢
  obtain ⟨hl, hp, -, -⟩ := h
  exact ⟨hl.setNext_of_notMem ha m, hp, Function.update_self _ _ _, trivial⟩

end Writes

/-! ## Queues -/

/-- A list with its ends and its count. -/
structure Queue (α : Type*) where
  head : Option α
  tail : Option α
  size : Nat
deriving DecidableEq

/-- The queue holds the cells of the list, each once. -/
structure Represents (σ : Links α) (q : Queue α) (l : List α) : Prop where
  head : q.head = l.head?
  tail : q.tail = l.getLast?
  size : q.size = l.length
  nodup : l.Nodup
  segment : Segment σ none l none

instance [DecidableEq α] (σ : Links α) (q : Queue α) (l : List α) :
    Decidable (Represents σ q l) :=
  decidable_of_iff (q.head = l.head? ∧ q.tail = l.getLast? ∧ q.size = l.length ∧ l.Nodup ∧
    Segment σ none l none)
    ⟨fun h => ⟨h.1, h.2.1, h.2.2.1, h.2.2.2.1, h.2.2.2.2⟩,
      fun h => ⟨h.head, h.tail, h.size, h.nodup, h.segment⟩⟩

theorem represents_nil (σ : Links α) : Represents σ ⟨none, none, 0⟩ [] :=
  ⟨rfl, rfl, rfl, List.nodup_nil, trivial⟩

theorem Represents.congr {r : Queue α} (h : Represents σ r l)
    (hsame : ∀ a ∈ l, τ.prev a = σ.prev a ∧ τ.next a = σ.next a) : Represents τ r l :=
  ⟨h.head, h.tail, h.size, h.nodup, h.segment.congr hsame⟩

section Operations

variable [DecidableEq α] {r : Queue α}

/-- The link of the first cell, if there is one, back to `a`. -/
def Links.setHeadPrev (σ : Links α) (r : Queue α) (a : α) : Links α :=
  match r.head with
  | some b => σ.setPrev b (some a)
  | none => σ

theorem Represents.setHeadPrev (h : Represents σ r l) (a : α) :
    Segment (σ.setHeadPrev r a) (some a) l none := by
  unfold Links.setHeadPrev
  rw [h.head]
  cases l with
  | nil => trivial
  | cons b l => exact h.segment.setPrev_head (List.nodup_cons.mp h.nodup).1 _

theorem Segment.setHeadPrev (h : Segment σ p l₁ n) (hr : Represents τ r l) (hdis : l₁.Disjoint l)
    (a : α) : Segment (σ.setHeadPrev r a) p l₁ n := by
  unfold Links.setHeadPrev
  rw [hr.head]
  cases l with
  | nil => exact h
  | cons b l => exact h.setPrev_of_notMem (fun hb => hdis hb List.mem_cons_self) _

/-- A list between any two cells is put in front of a queue. -/
theorem Represents.append {c : List α} (h : Represents σ r l) (hc : Segment σ p (c ++ [b]) n)
    (hhead : (c ++ [b]).head? = some a) (hnd : (c ++ [b] ++ l).Nodup) :
    Represents ((((σ.setNext b r.head).setHeadPrev r b)).setPrev a none)
      ⟨some a, r.tail.or (some b), r.size + (c.length + 1)⟩ (c ++ [b] ++ l) := by
  obtain ⟨hcb, hl, hdis⟩ := List.nodup_append'.mp hnd
  have hbl : b ∉ l := fun hb => hdis (List.mem_append_right c (List.mem_singleton_self b)) hb
  have hal : a ∉ l := fun ha => hdis (List.mem_of_mem_head? hhead) ha
  have hbc : b ∉ c := by
    intro hb
    exact (List.nodup_append'.mp hcb).2.2 hb (List.mem_singleton_self b)
  have hlist : Represents (σ.setNext b r.head) r l :=
    ⟨h.head, h.tail, h.size, h.nodup, h.segment.setNext_of_notMem hbl _⟩
  have hfront : Segment ((σ.setNext b r.head).setHeadPrev r b) p (c ++ [b]) r.head :=
    (hc.setNext_last hbc r.head).setHeadPrev hlist hdis b
  obtain ⟨d, hd⟩ : ∃ d, c ++ [b] = a :: d := by
    cases hcd : c ++ [b] with
    | nil => rw [hcd] at hhead; cases hhead
    | cons x d =>
        rw [hcd, List.head?_cons, Option.some.injEq] at hhead
        exact ⟨d, by rw [hhead]⟩
  have had : a ∉ d := by
    rw [hd, List.nodup_cons] at hcb
    exact hcb.1
  refine ⟨?_, ?_, ?_, hnd, segment_append.mpr ⟨?_, ?_⟩⟩
  · rw [List.head?_append, hhead]
    rfl
  · rw [List.getLast?_append, List.getLast?_concat, h.tail]
  · rw [h.size, List.length_append, List.length_append, List.length_singleton, Nat.add_comm]
  · rw [Option.or_none, ← h.head]
    rw [hd] at hfront ⊢
    exact hfront.setPrev_head had none
  · rw [List.getLast?_concat]
    exact (hlist.setHeadPrev b).setPrev_of_notMem hal none

/-- A cell is put in front of a queue. -/
theorem Represents.cons (h : Represents σ r l) (ha : a ∉ l) :
    Represents (((σ.setPrev a none).setNext a r.head).setHeadPrev r a)
      ⟨some a, r.tail.or (some a), r.size + 1⟩ (a :: l) := by
  have hlist : Represents ((σ.setPrev a none).setNext a r.head) r l :=
    ⟨h.head, h.tail, h.size, h.nodup,
      (h.segment.setPrev_of_notMem ha _).setNext_of_notMem ha _⟩
  have hone : Segment ((σ.setPrev a none).setNext a r.head) none [a] r.head :=
    ⟨Function.update_self _ _ _, Function.update_self _ _ _, trivial⟩
  refine ⟨rfl, ?_, ?_, List.nodup_cons.mpr ⟨ha, h.nodup⟩, ?_⟩
  · rw [h.tail, List.getLast?_cons]
    cases l.getLast? <;> rfl
  · rw [List.length_cons]
    exact congrArg (· + 1) h.size
  · have hdis : [a].Disjoint l := List.singleton_disjoint.mpr ha
    change Segment _ none ([a] ++ l) none
    refine segment_append.mpr ⟨?_, hlist.setHeadPrev a⟩
    rw [Option.or_none, ← h.head]
    exact hone.setHeadPrev hlist hdis a

/-- The front of a queue that is cut behind `b`. -/
theorem Represents.cut {c d : List α} (h : Represents σ r (c ++ [b] ++ d)) :
    Represents (σ.setNext b none) ⟨r.head, some b, r.size - d.length⟩ (c ++ [b]) ∧
      Segment (σ.setNext b none) (some b) d none := by
  obtain ⟨hcb, hd, hdis⟩ := List.nodup_append'.mp h.nodup
  obtain ⟨hfront, hback⟩ := segment_append.mp h.segment
  have hbc : b ∉ c := by
    intro hb
    exact (List.nodup_append'.mp hcb).2.2 hb (List.mem_singleton_self b)
  have hbd : b ∉ d := fun hb => hdis (List.mem_append_right c (List.mem_singleton_self b)) hb
  refine ⟨⟨?_, ?_, ?_, hcb, hfront.setNext_last hbc none⟩, ?_⟩
  · have hhead := h.head
    rw [List.head?_append] at hhead
    rw [hhead]
    cases c <;> rfl
  · rw [List.getLast?_concat]
  · rw [h.size, List.length_append, Nat.add_sub_cancel]
  · rw [List.getLast?_concat] at hback
    exact hback.setNext_of_notMem hbd none

/-- The cell in front of `a`, if there is one, is linked to the one behind it. -/
def Links.skipNext (σ : Links α) (a : α) : Links α :=
  match σ.prev a with
  | some p => σ.setNext p (σ.next a)
  | none => σ

/-- The cell behind `a`, if there is one, is linked back to the one in front of it. -/
def Links.skipPrev (σ : Links α) (a : α) : Links α :=
  match σ.next a with
  | some n => σ.setPrev n (σ.prev a)
  | none => σ

theorem Links.skipPrev_next (σ : Links α) (a : α) : (σ.skipPrev a).next = σ.next := by
  unfold Links.skipPrev
  cases σ.next a <;> rfl

theorem Segment.skipNext (h : Segment σ none (l₁ ++ a :: l₂) none)
    (hnd : (l₁ ++ a :: l₂).Nodup) :
    Segment (σ.skipNext a) none l₁ l₂.head? ∧
      Segment (σ.skipNext a) l₁.getLast? (a :: l₂) none := by
  obtain ⟨hl, -, hdis⟩ := List.nodup_append'.mp hnd
  have hprev : σ.prev a = l₁.getLast? := by rw [h.prev_eq, Option.or_none]
  have hnext : σ.next a = l₂.head? := by rw [h.next_eq, Option.or_none]
  obtain ⟨hfront, hback⟩ := segment_append.mp h
  rw [Option.or_none] at hback
  unfold Links.skipNext
  rw [hprev, hnext]
  rcases List.eq_nil_or_concat' l₁ with rfl | ⟨c, p, rfl⟩
  · exact ⟨trivial, hback⟩
  · rw [List.getLast?_concat] at hback ⊢
    have hpc : p ∉ c := fun hp => (List.nodup_append'.mp hl).2.2 hp (List.mem_singleton_self p)
    have hpb : p ∉ a :: l₂ := fun hp =>
      hdis (List.mem_append_right c (List.mem_singleton_self p)) hp
    exact ⟨hfront.setNext_last hpc _, hback.setNext_of_notMem hpb _⟩

theorem Segment.skipPrev (hfront : Segment σ none l₁ l₂.head?)
    (hback : Segment σ l₁.getLast? (a :: l₂) none) (hnd : (l₁ ++ a :: l₂).Nodup) :
    Segment (σ.skipPrev a) none (l₁ ++ l₂) none := by
  obtain ⟨-, hal, hdis⟩ := List.nodup_append'.mp hnd
  obtain ⟨hprev, hnext, hl⟩ := hback
  rw [Option.or_none] at hnext
  rw [segment_append, Option.or_none, Option.or_none]
  unfold Links.skipPrev
  rw [hprev, hnext]
  cases l₂ with
  | nil => exact ⟨hfront, trivial⟩
  | cons n l₂ =>
      have hn : n ∉ l₂ := (List.nodup_cons.mp (List.nodup_cons.mp hal).2).1
      have hnl : n ∉ l₁ := fun h => hdis h (List.mem_cons_of_mem a List.mem_cons_self)
      exact ⟨hfront.setPrev_of_notMem hnl _, hl.setPrev_head hn _⟩

/-- A cell is taken out. -/
theorem Segment.unlink (h : Segment σ none (l₁ ++ a :: l₂) none) (hnd : (l₁ ++ a :: l₂).Nodup) :
    Segment ((σ.skipNext a).skipPrev a) none (l₁ ++ l₂) none := by
  obtain ⟨hfront, hback⟩ := h.skipNext hnd
  exact hfront.skipPrev hback hnd

/-- A cell is put behind the last one. -/
theorem Segment.snoc {t : α} (h : Segment σ none l none) (ht : l.getLast? = some t) (ha : a ∉ l)
    (hnd : l.Nodup) :
    Segment (((σ.setPrev a (some t)).setNext t (some a)).setNext a none) none (l ++ [a]) none := by
  obtain ⟨c, rfl⟩ : ∃ c, l = c ++ [t] := by
    rcases List.eq_nil_or_concat' l with rfl | ⟨c, b, rfl⟩
    · cases ht
    · rw [List.getLast?_concat, Option.some.injEq] at ht
      exact ⟨c, by rw [ht]⟩
  have htc : t ∉ c := fun h => (List.nodup_append'.mp hnd).2.2 h (List.mem_singleton_self t)
  have hta : a ≠ t := fun heq => ha (by rw [heq]; simp)
  refine segment_append.mpr ⟨?_, ?_, Function.update_self _ _ _, trivial⟩
  · have hlast := (h.setPrev_of_notMem ha (some t)).setNext_last htc (some a)
    exact hlast.setNext_of_notMem ha none
  · rw [List.getLast?_concat]
    exact Function.update_self _ _ _

end Operations

end DoublyLinked
