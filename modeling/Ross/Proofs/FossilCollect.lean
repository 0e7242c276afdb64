import Mathlib.Algebra.Order.BigOperators.Group.List
import Mathlib.Algebra.Order.Ring.Nat
import Mathlib.Order.Fin.Basic
import Ross.Core.FossilHeap

/-!
# Fossil collection keeps the lists

The walk over the collected events goes from the back to the front, so the events
that `tw_event_free` puts in front of the free list meanwhile do not change the links
it follows.
-/

namespace Ross

open DoublyLinked

variable {T : Type} {nkp : Nat}

namespace FossilHeap

variable {cfg : FossilConfig} {event event' : Nat → EventCell T} {q : Queue Nat}
  {l : List Nat} {e : Nat} {s s' s'' : FossilHeap T nkp}

theorem bind_of_ok {α β : Type} {x : Except QueueError α} {a : α} (h : x = .ok a)
    (f : α → Except QueueError β) : (x >>= f) = f a := by
  rw [h]
  rfl

/-! ## Links -/

theorem links_setPrev (event : Nat → EventCell T) (e : Nat) (p : Option Nat) :
    links (setPrev event e p) = (links event).setPrev e p := by
  ext1 <;> funext x <;> by_cases hx : x = e
  · subst hx
    simp only [links, setPrev, Links.setPrev, Function.update_self]
  · simp only [links, setPrev, Links.setPrev, Function.update_of_ne hx]
  · subst hx
    simp only [links, setPrev, Links.setPrev, Function.update_self]
  · simp only [links, setPrev, Links.setPrev, Function.update_of_ne hx]

theorem links_setNext (event : Nat → EventCell T) (e : Nat) (n : Option Nat) :
    links (setNext event e n) = (links event).setNext e n := by
  ext1 <;> funext x <;> by_cases hx : x = e
  · subst hx
    simp only [links, setNext, Links.setNext, Function.update_self]
  · simp only [links, setNext, Links.setNext, Function.update_of_ne hx]
  · subst hx
    simp only [links, setNext, Links.setNext, Function.update_self]
  · simp only [links, setNext, Links.setNext, Function.update_of_ne hx]

theorem links_setHeadPrev (event : Nat → EventCell T) (q : Queue Nat) (e : Nat) :
    links (setHeadPrev event q e) = (links event).setHeadPrev q e := by
  unfold setHeadPrev Links.setHeadPrev
  cases q.head with
  | none => rfl
  | some h => exact links_setPrev event h (some e)

/-- The fields of an event besides its links. -/
def payload (c : EventCell T) : EventCell T := { c with prev := none, next := none }

theorem payload_setPrev (event : Nat → EventCell T) (e : Nat) (p : Option Nat) (x : Nat) :
    payload (setPrev event e p x) = payload (event x) := by
  unfold setPrev
  by_cases hx : x = e
  · rw [hx, Function.update_self]
    rfl
  · rw [Function.update_of_ne hx]

theorem payload_setNext (event : Nat → EventCell T) (e : Nat) (n : Option Nat) (x : Nat) :
    payload (setNext event e n x) = payload (event x) := by
  unfold setNext
  by_cases hx : x = e
  · rw [hx, Function.update_self]
    rfl
  · rw [Function.update_of_ne hx]

theorem payload_setHeadPrev (event : Nat → EventCell T) (q : Queue Nat) (e x : Nat) :
    payload (setHeadPrev event q e x) = payload (event x) := by
  unfold setHeadPrev
  cases q.head with
  | none => rfl
  | some h => exact payload_setPrev event h (some e) x

theorem setPrev_of_ne {x : Nat} (hx : x ≠ e) (p : Option Nat) : setPrev event e p x = event x :=
  Function.update_of_ne hx _ _

theorem setNext_of_ne {x : Nat} (hx : x ≠ e) (n : Option Nat) : setNext event e n x = event x :=
  Function.update_of_ne hx _ _

theorem setHeadPrev_of_notMem {x : Nat} (hq : q.head = l.head?) (hx : x ∉ l) :
    setHeadPrev event q e x = event x := by
  unfold setHeadPrev
  rw [hq]
  cases l with
  | nil => rfl
  | cons h l => exact setPrev_of_ne (fun heq : x = h => hx (heq ▸ List.mem_cons_self)) _

/-! ## The checks -/

theorem debugLoop_ok {last : Option Nat} (h : Segment (links event) last l none) {n : Nat}
    (hn : l.length ≤ n) (cnt : Nat) :
    debugLoop event n l.head? last cnt = .ok (l.getLast?.or last, cnt + l.length) := by
  induction l generalizing last n cnt with
  | nil => cases n <;> rfl
  | cons a l ih =>
      obtain ⟨hprev, hnext, hl⟩ := h
      cases n with
      | zero => cases hn
      | succ n =>
          have hprev' : (event a).prev = last := hprev
          have hnext' : (event a).next = l.head? := by
            rw [Option.or_none] at hnext
            exact hnext
          rw [List.head?_cons, debugLoop, if_neg (not_not.mpr hprev'), hnext',
            ih hl (Nat.le_of_succ_le_succ hn), List.getLast?_cons, List.length_cons]
          congr 2
          · cases l.getLast? <;> rfl
          · omega

/-- The checks of `tw_eventq_debug` pass on a well-formed list. -/
theorem twEventqDebug_ok (cfg : FossilConfig) (h : Represents (links event) q l) :
    twEventqDebug cfg event q = .ok () := by
  have hloop := debugLoop_ok h.segment (n := q.size) h.size.ge 0
  unfold twEventqDebug
  split
  · rw [h.head, hloop]
    dsimp only
    rw [h.tail, h.size, Option.or_none, Nat.zero_add, if_neg (not_not.mpr rfl),
      if_neg (not_not.mpr rfl)]
  · rfl

/-! ## One event to the free list -/

/-- What of the events may change: `es` are the events collected, `cs` the events of
their chains, and `l` the free list. -/
structure Touched (s s' : FossilHeap T nkp) (es cs l : List Nat) : Prop where
  peventQ : s'.peventQ = s.peventQ
  sig : ∀ x, (s'.event x).sig = (s.event x).sig
  destLp : ∀ x, (s'.event x).destLp = (s.event x).destLp
  eventId : ∀ x, (s'.event x).eventId = (s.event x).eventId
  remote : ∀ x, (s'.event x).remote = (s.event x).remote
  causedByMe : ∀ x, x ∉ es → (s'.event x).causedByMe = (s.event x).causedByMe
  causeNext : ∀ x, x ∉ cs → (s'.event x).causeNext = (s.event x).causeNext
  owner : ∀ x, x ∉ es → x ∉ cs → (s'.event x).owner = (s.event x).owner
  unsent : ∀ x, (s.event x).owner ≠ .peSeventQ → (s'.event x).owner ≠ .peSeventQ
  links : ∀ x, x ∉ l → (s'.event x).prev = (s.event x).prev ∧ (s'.event x).next = (s.event x).next

theorem Touched.refl (s : FossilHeap T nkp) (es cs l : List Nat) : Touched s s es cs l :=
  ⟨rfl, fun _ => rfl, fun _ => rfl, fun _ => rfl, fun _ => rfl, fun _ _ => rfl, fun _ _ => rfl,
    fun _ _ _ => rfl, fun _ h => h, fun _ _ => ⟨rfl, rfl⟩⟩

theorem Touched.trans {es es' cs cs' l l' : List Nat} (h : Touched s s' es cs l)
    (h' : Touched s' s'' es' cs' l') (hl : l ⊆ l') :
    Touched s s'' (es ++ es') (cs ++ cs') l' where
  peventQ := h'.peventQ.trans h.peventQ
  sig x := (h'.sig x).trans (h.sig x)
  destLp x := (h'.destLp x).trans (h.destLp x)
  eventId x := (h'.eventId x).trans (h.eventId x)
  remote x := (h'.remote x).trans (h.remote x)
  causedByMe x hx := by
    rw [List.mem_append, not_or] at hx
    exact (h'.causedByMe x hx.2).trans (h.causedByMe x hx.1)
  causeNext x hx := by
    rw [List.mem_append, not_or] at hx
    exact (h'.causeNext x hx.2).trans (h.causeNext x hx.1)
  owner x hx hc := by
    rw [List.mem_append, not_or] at hx hc
    exact (h'.owner x hx.2 hc.2).trans (h.owner x hx.1 hc.1)
  unsent x hx := h'.unsent x (h.unsent x hx)
  links x hx := by
    obtain ⟨hp, hn⟩ := h.links x fun hxl => hx (hl hxl)
    obtain ⟨hp', hn'⟩ := h'.links x hx
    exact ⟨hp'.trans hp, hn'.trans hn⟩

theorem Touched.mono {es es' cs cs' l l' : List Nat} (h : Touched s s' es cs l) (hes : es ⊆ es')
    (hcs : cs ⊆ cs') (hl : l ⊆ l') : Touched s s' es' cs' l' where
  peventQ := h.peventQ
  sig := h.sig
  destLp := h.destLp
  eventId := h.eventId
  remote := h.remote
  causedByMe x hx := h.causedByMe x fun hxe => hx (hes hxe)
  causeNext x hx := h.causeNext x fun hxc => hx (hcs hxc)
  owner x hx hc := h.owner x (fun hxe => hx (hes hxe)) fun hxc => hc (hcs hxc)
  unsent := h.unsent
  links x hx := h.links x fun hxl => hx (hl hxl)

theorem setEvent_self (s : FossilHeap T nkp) (e : Nat) (c : EventCell T) :
    (s.setEvent e c).event e = c := Function.update_self _ _ _

theorem setEvent_of_ne (s : FossilHeap T nkp) {e x : Nat} (hx : x ≠ e) (c : EventCell T) :
    (s.setEvent e c).event x = s.event x := Function.update_of_ne hx _ _

/-- Writing other fields than the links keeps the lists. -/
theorem links_setEvent (s : FossilHeap T nkp) (e : Nat) {c : EventCell T}
    (hprev : c.prev = (s.event e).prev) (hnext : c.next = (s.event e).next) :
    links (s.setEvent e c).event = links s.event := by
  ext1 <;> funext x <;> by_cases hx : x = e
  · subst hx
    simp only [links, setEvent_self, hprev]
  · simp only [links, setEvent_of_ne s hx]
  · subst hx
    simp only [links, setEvent_self, hnext]
  · simp only [links, setEvent_of_ne s hx]

/-- Writing the chain of an event of `es`, or the link of an event of `cs` in a chain. -/
theorem touched_setEvent (s : FossilHeap T nkp) {es cs : List Nat} (l : List Nat) {e : Nat}
    {c : EventCell T} (hsig : c.sig = (s.event e).sig) (hdest : c.destLp = (s.event e).destLp)
    (hid : c.eventId = (s.event e).eventId) (hremote : c.remote = (s.event e).remote)
    (hprev : c.prev = (s.event e).prev) (hnext : c.next = (s.event e).next)
    (hcaused : e ∉ es → c.causedByMe = (s.event e).causedByMe)
    (hcause : e ∉ cs → c.causeNext = (s.event e).causeNext)
    (howner : e ∉ es → e ∉ cs → c.owner = (s.event e).owner)
    (hunsent : c.owner = (s.event e).owner ∨ c.owner = .peFreeQ) :
    Touched s (s.setEvent e c) es cs l := by
  have hfield : ∀ {β : Type} (f : EventCell T → β) (x : Nat), (x = e → f c = f (s.event e)) →
      f ((s.setEvent e c).event x) = f (s.event x) := by
    intro β f x hf
    by_cases hx : x = e
    · subst hx
      rw [setEvent_self, hf rfl]
    · rw [setEvent_of_ne s hx]
  exact ⟨rfl, fun x => hfield EventCell.sig x fun _ => hsig,
    fun x => hfield EventCell.destLp x fun _ => hdest,
    fun x => hfield EventCell.eventId x fun _ => hid,
    fun x => hfield EventCell.remote x fun _ => hremote,
    fun x hx => hfield EventCell.causedByMe x fun heq => hcaused (heq ▸ hx),
    fun x hx => hfield EventCell.causeNext x fun heq => hcause (heq ▸ hx),
    fun x hx hc => hfield EventCell.owner x fun heq => howner (heq ▸ hx) (heq ▸ hc),
    fun x hx => by
      by_cases hxe : x = e
      · subst hxe
        rw [setEvent_self]
        rcases hunsent with h | h
        · rw [h]
          exact hx
        · rw [h]
          decide
      · rw [setEvent_of_ne s hxe]
        exact hx,
    fun x _ => ⟨hfield EventCell.prev x fun _ => hprev, hfield EventCell.next x fun _ => hnext⟩⟩

variable (cfg) in
/-- `tw_eventq_unshift` puts the event in front, and changes links only. -/
theorem twEventqUnshift_ok (h : Represents (links event) q l) (he : e ∉ l) :
    ∃ event' q', twEventqUnshift cfg event q e = .ok (event', q') ∧
      Represents (links event') q' (e :: l) ∧ (∀ x, payload (event' x) = payload (event x)) ∧
      ∀ x, x ∉ e :: l → event' x = event x := by
  have hrep : Represents (links (setHeadPrev (setNext (setPrev event e none) e q.head) q e))
      ⟨some e, q.tail.or (some e), q.size + 1⟩ (e :: l) := by
    rw [links_setHeadPrev, links_setNext, links_setPrev]
    exact h.cons he
  refine ⟨_, _, ?_, hrep, fun x => ?_, fun x hx => ?_⟩
  · unfold twEventqUnshift
    rw [bind_of_ok (twEventqDebug_ok cfg h)]
    exact bind_of_ok (twEventqDebug_ok cfg hrep) _
  · rw [payload_setHeadPrev, payload_setNext, payload_setPrev]
  · rw [List.mem_cons, not_or] at hx
    rw [setHeadPrev_of_notMem h.head hx.2, setNext_of_ne hx.1, setPrev_of_ne hx.1]

variable (cfg) in
/-- `tw_event_free` puts the event in front of the free list. -/
theorem twEventFree_ok (h : Represents (links s.event) s.freeQ l) (he : e ∉ l) :
    ∃ s', twEventFree cfg s e = .ok s' ∧ Represents (links s'.event) s'.freeQ (e :: l) ∧
      s'.committed = s.committed ∧ s'.unhashed = s.unhashed ∧ Touched s s' [] [e] (e :: l) ∧
      (∀ x, (s'.event x).causeNext = (s.event x).causeNext) := by
  have hlinks : links (s.setEvent e { s.event e with owner := .peFreeQ }).event = links s.event :=
    links_setEvent s e rfl rfl
  obtain ⟨event', q', hun, hrep, hpay, hsame⟩ := twEventqUnshift_ok cfg
    (hlinks ▸ h) he
  have hpay' : ∀ x, payload (event' x) =
      payload ((s.setEvent e { s.event e with owner := .peFreeQ }).event x) := hpay
  have hne : ∀ x, x ≠ e → payload (event' x) = payload (s.event x) := by
    intro x hx
    rw [hpay', setEvent_of_ne s hx]
  have hself : payload (event' e) = payload { s.event e with owner := .peFreeQ } := by
    rw [hpay', setEvent_self]
  have hfield : ∀ {β : Type} (f : EventCell T → β), (∀ c, f (payload c) = f c) →
      (∀ c, f { c with owner := .peFreeQ } = f c) → ∀ x, f (event' x) = f (s.event x) := by
    intro β f hf hfo x
    by_cases hx : x = e
    · subst hx
      rw [← hf, hself, hf, hfo]
    · rw [← hf, hne x hx, hf]
  refine ⟨{ s with event := event', freeQ := q' }, ?_, hrep, rfl, rfl, ⟨rfl, ?_, ?_, ?_, ?_,
    fun x _ => ?_, fun x _ => ?_, fun x _ hx => ?_, fun x hx => ?_, fun x hx => ?_⟩, ?_⟩
  · unfold twEventFree
    exact bind_of_ok hun _
  · exact hfield EventCell.sig (fun _ => rfl) fun _ => rfl
  · exact hfield EventCell.destLp (fun _ => rfl) fun _ => rfl
  · exact hfield EventCell.eventId (fun _ => rfl) fun _ => rfl
  · exact hfield EventCell.remote (fun _ => rfl) fun _ => rfl
  · exact hfield EventCell.causedByMe (fun _ => rfl) (fun _ => rfl) x
  · exact hfield EventCell.causeNext (fun _ => rfl) (fun _ => rfl) x
  · have hxe : x ≠ e := fun heq => hx (heq ▸ List.mem_singleton_self e)
    have howner := congrArg EventCell.owner (hne x hxe)
    exact howner
  · by_cases hxe : x = e
    · subst hxe
      have howner := congrArg EventCell.owner hself
      rw [show (event' x).owner = .peFreeQ from howner]
      decide
    · have howner := congrArg EventCell.owner (hne x hxe)
      rw [show (event' x).owner = (s.event x).owner from howner]
      exact hx
  · have hxe : x ≠ e := fun heq => hx (heq ▸ List.mem_cons_self)
    have heq : event' x = s.event x := by
      rw [hsame x hx]
      exact setEvent_of_ne s hxe _
    dsimp only
    rw [heq]
    exact ⟨rfl, rfl⟩
  · exact hfield EventCell.causeNext (fun _ => rfl) fun _ => rfl

/-! ## The children of an event -/

/-- The chain of children through `cause_next`. -/
def Chain (event : Nat → EventCell T) : Option Nat → List Nat → Prop
  | p, [] => p = none
  | p, c :: cs => p = some c ∧ Chain event (event c).causeNext cs

instance decidableChain (event : Nat → EventCell T) :
    (p : Option Nat) → (cs : List Nat) → Decidable (Chain event p cs)
  | p, [] => inferInstanceAs (Decidable (p = none))
  | p, c :: cs =>
      have : Decidable (Chain event (event c).causeNext cs) := decidableChain event _ cs
      inferInstanceAs (Decidable (p = some c ∧ Chain event (event c).causeNext cs))

theorem Chain.congr {p : Option Nat} {cs : List Nat} (h : Chain event p cs)
    (hsame : ∀ c ∈ cs, (event' c).causeNext = (event c).causeNext) : Chain event' p cs := by
  induction cs generalizing p with
  | nil => exact h
  | cons c cs ih =>
      obtain ⟨hp, hcs⟩ := h
      refine ⟨hp, ?_⟩
      rw [hsame c List.mem_cons_self]
      exact ih hcs fun d hd => hsame d (List.mem_cons_of_mem c hd)

/-- The children that are owned by `TW_pe_sevent_q`. -/
def sent (event : Nat → EventCell T) (cs : List Nat) : List Nat :=
  cs.filter fun c => decide ((event c).owner = .peSeventQ)

theorem sent_congr {cs : List Nat}
    (hsame : ∀ c ∈ cs, ((event' c).owner = .peSeventQ ↔ (event c).owner = .peSeventQ)) :
    sent event' cs = sent event cs :=
  List.filter_congr fun c hc => decide_eq_decide.mpr (hsame c hc)

theorem mem_sent {cs : List Nat} {c : Nat} :
    c ∈ sent event cs ↔ c ∈ cs ∧ (event c).owner = .peSeventQ := by
  rw [sent, List.mem_filter, decide_eq_true_eq]

variable (cfg) in
/-- The loop over the children puts the sent ones in front of the free list. -/
theorem childLoop_ok {n : Nat} {p : Option Nat} {cs : List Nat} (hchain : Chain s.event p cs)
    (hnd : cs.Nodup) (hn : cs.length ≤ n) (h : Represents (links s.event) s.freeQ l)
    (hsent : ∀ c ∈ sent s.event cs, c ∉ l) :
    ∃ s', childLoop cfg n p s = .ok s' ∧
      Represents (links s'.event) s'.freeQ ((sent s.event cs).reverse ++ l) ∧
      s'.committed = s.committed ∧ s'.unhashed = s.unhashed ∧
      Touched s s' [] cs ((sent s.event cs).reverse ++ l) := by
  induction cs generalizing n p s l with
  | nil =>
      rw [Chain] at hchain
      subst hchain
      refine ⟨s, ?_, h, rfl, rfl, Touched.refl s _ _ _⟩
      cases n <;> rfl
  | cons c cs ih =>
      obtain ⟨rfl, hchain⟩ := hchain
      rw [List.nodup_cons] at hnd
      cases n with
      | zero => cases hn
      | succ n =>
          have hs₁ : Touched s (s.setEvent c { s.event c with causeNext := none }) [] [c] l :=
            touched_setEvent s l rfl rfl rfl rfl rfl rfl (fun _ => rfl)
              (fun hc => absurd (List.mem_singleton_self c) hc) (fun _ _ => rfl) (.inl rfl)
          have hlinks : links (s.setEvent c { s.event c with causeNext := none }).event =
              links s.event := links_setEvent s c rfl rfl
          have hown₁ : ∀ x, ((s.setEvent c { s.event c with causeNext := none }).event x).owner =
              (s.event x).owner := by
            intro x
            by_cases hx : x = c
            · rw [hx, setEvent_self]
            · rw [setEvent_of_ne s hx]
          have hchain₁ : Chain (s.setEvent c { s.event c with causeNext := none }).event
              (s.event c).causeNext cs :=
            hchain.congr fun d hd => hs₁.causeNext d fun hdc =>
              hnd.1 (List.mem_singleton.mp hdc ▸ hd)
          unfold childLoop
          by_cases how : (s.event c).owner = .peSeventQ
          · have hsent_cons : sent s.event (c :: cs) = c :: sent s.event cs :=
              List.filter_cons_of_pos (decide_eq_true how)
            rw [hsent_cons] at hsent ⊢
            obtain ⟨s₂, hfree, hrep₂, hcom₂, hunh₂, ht₂, hcn₂⟩ := twEventFree_ok cfg
              (hlinks ▸ h) (hsent c List.mem_cons_self)
            have hown₂ : ∀ d ∈ cs, (s₂.event d).owner = (s.event d).owner := by
              intro d hd
              rw [ht₂.owner d (List.not_mem_nil) fun hdc => hnd.1 (List.mem_singleton.mp hdc ▸ hd),
                hown₁]
            have hsent₂ : sent s₂.event cs = sent s.event cs :=
              sent_congr fun d hd => by rw [hown₂ d hd]
            obtain ⟨s', hloop, hrep, hcom, hunh, ht⟩ := ih
              (hchain₁.congr fun d _ => hcn₂ d) hnd.2 (Nat.le_of_succ_le_succ hn) hrep₂ (by
                rw [hsent₂]
                intro d hd hmem
                rcases List.mem_cons.mp hmem with rfl | hdl
                · exact hnd.1 (mem_sent.mp hd).1
                · exact hsent d (List.mem_cons_of_mem c hd) hdl)
            rw [hsent₂] at hrep ht
            have hlist : (c :: sent s.event cs).reverse ++ l =
                (sent s.event cs).reverse ++ (c :: l) := by
              rw [List.reverse_cons, List.append_assoc, List.singleton_append]
            rw [hlist]
            refine ⟨s', ?_, hrep, hcom.trans hcom₂, hunh.trans hunh₂, ?_⟩
            · dsimp only
              rw [hown₁, if_pos how, bind_of_ok hfree]
              exact hloop
            · refine ((hs₁.trans ht₂ (List.subset_cons_self c l)).trans ht
                (List.subset_append_right _ _)).mono (fun x hx => hx) (fun x hx => ?_)
                (fun x hx => hx)
              simpa [or_assoc] using hx
          · have hsent_cons : sent s.event (c :: cs) = sent s.event cs :=
              List.filter_cons_of_neg (by rw [decide_eq_true_eq]; exact how)
            rw [hsent_cons] at hsent ⊢
            have hsent₁ : sent (s.setEvent c { s.event c with causeNext := none }).event cs =
                sent s.event cs := sent_congr fun d _ => by rw [hown₁ d]
            obtain ⟨s', hloop, hrep, hcom, hunh, ht⟩ := ih hchain₁ hnd.2
              (Nat.le_of_succ_le_succ hn) (hlinks ▸ h) (by rw [hsent₁]; exact hsent)
            rw [hsent₁] at hrep ht
            refine ⟨s', ?_, hrep, hcom, hunh, hs₁.trans ht (List.subset_append_right _ _)⟩
            dsimp only
            rw [hown₁, if_neg how]
            exact hloop

/-! ## The events collected -/

/-- The events of the list whose LP has a commit handler. -/
def toCommit (cfg : FossilConfig) (event : Nat → EventCell T) (es : List Nat) : List Nat :=
  es.filter fun e => cfg.commits (event e).destLp

/-- The events of the list that are in the remote-event index. -/
def toUnhash (event : Nat → EventCell T) (es : List Nat) : List Nat :=
  es.filter fun e => decide ((event e).eventId ≠ 0 ∧ (event e).remote)

theorem toCommit_congr {es : List Nat} (hdest : ∀ e ∈ es, (event' e).destLp = (event e).destLp) :
    toCommit cfg event' es = toCommit cfg event es :=
  List.filter_congr fun e he => by rw [hdest e he]

theorem toUnhash_congr {es : List Nat} (hid : ∀ e ∈ es, (event' e).eventId = (event e).eventId)
    (hremote : ∀ e ∈ es, (event' e).remote = (event e).remote) :
    toUnhash event' es = toUnhash event es :=
  List.filter_congr fun e he => by rw [hid e he, hremote e he]

variable (cfg) in
/-- One turn of the loop: the handler is called, the index entry leaves, and the sent
children go to the free list. -/
theorem commitEvent_ok {n : Nat} {cs : List Nat}
    (hchain : Chain s.event (s.event e).causedByMe cs) (hnd : cs.Nodup) (hn : cs.length ≤ n)
    (h : Represents (links s.event) s.freeQ l) (hsent : ∀ c ∈ sent s.event cs, c ∉ l) :
    ∃ s', commitEvent cfg n s e = .ok s' ∧
      Represents (links s'.event) s'.freeQ ((sent s.event cs).reverse ++ l) ∧
      s'.committed = s.committed ++ toCommit cfg s.event [e] ∧
      s'.unhashed = s.unhashed ++ toUnhash s.event [e] ∧
      Touched s s' [e] cs ((sent s.event cs).reverse ++ l) := by
  obtain ⟨s₁, hs₁, hevent, hfree, hpq, hcom₁, hunh₁⟩ : ∃ s₁ : FossilHeap T nkp,
      (let s := if cfg.commits (s.event e).destLp then { s with committed := s.committed ++ [e] }
        else s
      if (s.event e).eventId ≠ 0 ∧ (s.event e).remote then
        { s with unhashed := s.unhashed ++ [e] } else s) = s₁ ∧ s₁.event = s.event ∧
      s₁.freeQ = s.freeQ ∧ s₁.peventQ = s.peventQ ∧
      s₁.committed = s.committed ++ toCommit cfg s.event [e] ∧
      s₁.unhashed = s.unhashed ++ toUnhash s.event [e] := by
    refine ⟨_, rfl, ?_⟩
    unfold toCommit toUnhash
    simp only [List.filter_singleton]
    by_cases hc : cfg.commits (s.event e).destLp = true <;>
      by_cases hu : (s.event e).eventId ≠ 0 ∧ (s.event e).remote = true <;>
      simp [hc, hu]
  have ht₁ : Touched s s₁ [] [] l := by
    refine ⟨hpq, ?_, ?_, ?_, ?_, ?_, ?_, ?_, ?_, ?_⟩ <;>
      simp only [hevent, implies_true, and_self, imp_self]
  unfold commitEvent
  dsimp only at hs₁ ⊢
  rw [hs₁, hevent]
  cases hp : (s.event e).causedByMe with
  | none =>
      rw [hp] at hchain
      cases cs with
      | nil =>
          refine ⟨s₁, rfl, ?_, hcom₁, hunh₁, ht₁.mono (List.nil_subset _) (List.nil_subset _)
            (List.subset_append_right _ _)⟩
          rw [hevent, hfree]
          exact h
      | cons c cs => cases hchain.1
  | some cev =>
      rw [hp] at hchain
      obtain ⟨s₂, hloop, hrep₂, hcom₂, hunh₂, ht₂⟩ := childLoop_ok cfg (n := n)
        (s := s₁) (l := l) (hevent ▸ hchain) hnd hn (by rw [hevent, hfree]; exact h)
        (by rw [hevent]; exact hsent)
      rw [hevent] at hrep₂ ht₂
      have ht₃ : Touched s₂ (s₂.setEvent e
          { s₂.event e with causedByMe := none, owner := .peFreeQ }) [e] []
          ((sent s.event cs).reverse ++ l) :=
        touched_setEvent s₂ _ rfl rfl rfl rfl rfl rfl
          (fun he => absurd (List.mem_singleton_self e) he) (fun _ => rfl)
          (fun he _ => absurd (List.mem_singleton_self e) he) (.inr rfl)
      refine ⟨_, bind_of_ok hloop _, ?_, hcom₂.trans hcom₁, hunh₂.trans hunh₁, ?_⟩
      · have hlinks : links (s₂.setEvent e
            { s₂.event e with causedByMe := none, owner := .peFreeQ }).event = links s₂.event :=
          links_setEvent s₂ e rfl rfl
        rw [hlinks]
        exact hrep₂
      · refine ((ht₁.trans ht₂ (List.subset_append_right _ _)).trans ht₃ fun x hx => hx).mono
          (fun x hx => hx) (fun x hx => ?_) fun x hx => hx
        simpa using hx

/-- The children of the events that are owned by `TW_pe_sevent_q`, in the order in which
they are freed. -/
def sentOf (event : Nat → EventCell T) (kids : Nat → List Nat) (es : List Nat) : List Nat :=
  es.flatMap fun e => sent event (kids e)

/-- What holds of the chains of the events that are still to be collected. -/
structure Chains (event : Nat → EventCell T) (kids : Nat → List Nat) (es l : List Nat) : Prop where
  chain : ∀ e ∈ es, Chain event (event e).causedByMe (kids e)
  single : (es.flatMap kids).Nodup
  unsent : ∀ e ∈ es, (event e).owner ≠ .peSeventQ
  apart : ∀ e ∈ es, ∀ c ∈ sent event (kids e), c ∉ l

/-- Collecting an event leaves the chains of the others. -/
theorem Chains.tail {kids : Nat → List Nat} {es : List Nat} (h : Chains s.event kids (e :: es) l)
    (hne : e ∉ es) (ht : Touched s s' [e] (kids e) ((sent s.event (kids e)).reverse ++ l)) :
    Chains s'.event kids es ((sent s.event (kids e)).reverse ++ l) ∧
      ∀ x ∈ es, sent s'.event (kids x) = sent s.event (kids x) := by
  have hsingle := h.single
  rw [List.flatMap_cons, List.nodup_append'] at hsingle
  obtain ⟨-, hnd, hdis⟩ := hsingle
  have hother : ∀ x ∈ es, ∀ c ∈ kids x, c ∉ kids e :=
    fun x hx c hc hce => hdis hce (List.mem_flatMap.mpr ⟨x, hx, hc⟩)
  have hsent : ∀ x ∈ es, sent s'.event (kids x) = sent s.event (kids x) := by
    intro x hx
    refine sent_congr fun c hc => ?_
    by_cases hce : c = e
    · have hunsent := h.unsent e List.mem_cons_self
      subst hce
      exact iff_of_false (ht.unsent c hunsent) hunsent
    · rw [ht.owner c (fun hmem => hce (List.mem_singleton.mp hmem)) (hother x hx c hc)]
  refine ⟨⟨fun x hx => ?_, hnd, fun x hx => ?_, fun x hx c hc hmem => ?_⟩, hsent⟩
  · have hxe : x ∉ [e] := fun hmem => hne (List.mem_singleton.mp hmem ▸ hx)
    rw [ht.causedByMe x hxe]
    exact (h.chain x (List.mem_cons_of_mem e hx)).congr fun c hc =>
      ht.causeNext c (hother x hx c hc)
  · exact ht.unsent x (h.unsent x (List.mem_cons_of_mem e hx))
  · rw [hsent x hx] at hc
    rcases List.mem_append.mp hmem with hce | hcl
    · exact hother x hx c (mem_sent.mp hc).1 (mem_sent.mp (List.mem_reverse.mp hce)).1
    · exact h.apart x (List.mem_cons_of_mem e hx) c hc hcl

variable (cfg) in
/-- The loop over the collected events, from the last one to the first. -/
theorem commitLoop_ok {n m h : Nat} {kids : Nat → List Nat} {es : List Nat}
    (freed done : List Nat)
    (hlast : (e :: es).getLast? = some h)
    (hfree : Represents (links s.event) s.freeQ (freed ++ (e :: es).reverse ++ done))
    (hch : Chains s.event kids (e :: es) (freed ++ (e :: es).reverse ++ done))
    (hm : es.length < m) (hn : ∀ x ∈ e :: es, (kids x).length ≤ n) :
    ∃ s', commitLoop cfg n h m e s = .ok s' ∧
      Represents (links s'.event) s'.freeQ
        ((sentOf s.event kids (e :: es)).reverse ++ (freed ++ (e :: es).reverse ++ done)) ∧
      s'.committed = s.committed ++ toCommit cfg s.event (e :: es) ∧
      s'.unhashed = s.unhashed ++ toUnhash s.event (e :: es) ∧
      Touched s s' (e :: es) ((e :: es).flatMap kids)
        ((sentOf s.event kids (e :: es)).reverse ++ (freed ++ (e :: es).reverse ++ done)) := by
  induction es generalizing e s freed done m with
  | nil =>
      cases m with
      | zero => cases hm
      | succ m =>
          rw [List.getLast?_singleton, Option.some.injEq] at hlast
          obtain ⟨s₁, hev, hrep, hcom, hunh, ht⟩ := commitEvent_ok cfg
            (hch.chain e List.mem_cons_self) (by simpa using hch.single)
            (hn e List.mem_cons_self) hfree (hch.apart e List.mem_cons_self)
          have hone : sentOf s.event kids [e] = sent s.event (kids e) := List.flatMap_singleton _ _
          rw [hone, List.flatMap_singleton]
          refine ⟨s₁, ?_, hrep, hcom, hunh, ht⟩
          unfold commitLoop
          rw [bind_of_ok hev, if_pos hlast]
          rfl
  | cons p es ih =>
      cases m with
      | zero => cases hm
      | succ m =>
          have hnodup := hfree.nodup
          have hne : e ∉ p :: es := by
            have hrev : ((e :: p :: es).reverse).Nodup :=
              (List.nodup_append'.mp (List.nodup_append'.mp hnodup).1).2.1
            exact (List.nodup_cons.mp (List.nodup_reverse.mp hrev)).1
          have heh : e ≠ h := by
            rintro rfl
            rw [List.getLast?_cons_cons] at hlast
            exact hne (List.mem_of_getLast? hlast)
          have hsingle := hch.single
          rw [List.flatMap_cons, List.nodup_append'] at hsingle
          obtain ⟨s₁, hev, hrep, hcom, hunh, ht⟩ := commitEvent_ok cfg
            (hch.chain e List.mem_cons_self) hsingle.1 (hn e List.mem_cons_self) hfree
            (hch.apart e List.mem_cons_self)
          obtain ⟨hch₁, hsent₁⟩ := hch.tail hne ht
          have hsplit :
              (sent s.event (kids e)).reverse ++ (freed ++ (e :: p :: es).reverse ++ done) =
              ((sent s.event (kids e)).reverse ++ freed) ++ (p :: es).reverse ++ (e :: done) := by
            rw [List.reverse_cons]
            simp only [List.append_assoc, List.singleton_append]
          rw [hsplit] at hrep hch₁ ht
          have hprev : (s₁.event e).prev = some p := by
            have hseg := hrep.segment.prev_eq
            rw [List.reverse_cons, ← List.append_assoc, List.getLast?_concat] at hseg
            exact hseg
          obtain ⟨s', hloop, hrep', hcom', hunh', ht'⟩ := ih (m := m) _ _
            (by rw [List.getLast?_cons_cons] at hlast; exact hlast) hrep hch₁
            (Nat.lt_of_succ_lt_succ hm) fun x hx => hn x (List.mem_cons_of_mem e hx)
          have hsentOf : sentOf s.event kids (e :: p :: es) =
              sent s.event (kids e) ++ sentOf s₁.event kids (p :: es) := by
            unfold sentOf
            rw [List.flatMap_cons]
            congr 1
            exact List.flatMap_congr fun x hx => (hsent₁ x hx).symm
          have hlist : (sentOf s.event kids (e :: p :: es)).reverse ++
              (freed ++ (e :: p :: es).reverse ++ done) =
              (sentOf s₁.event kids (p :: es)).reverse ++
                (((sent s.event (kids e)).reverse ++ freed) ++ (p :: es).reverse ++
                  (e :: done)) := by
            rw [hsentOf, List.reverse_append, List.append_assoc, hsplit]
          rw [hlist]
          refine ⟨s', ?_, hrep', ?_, ?_, ht.trans ht' (List.subset_append_right _ _)⟩
          · unfold commitLoop
            rw [bind_of_ok hev, if_neg heh, hprev]
            exact hloop
          · rw [hcom', hcom, toCommit_congr fun x _ => ht.destLp x, List.append_assoc]
            exact congrArg (s.committed ++ ·) (List.filter_append [e] (p :: es)).symm
          · rw [hunh', hunh, toUnhash_congr (fun x _ => ht.eventId x) fun x _ => ht.remote x,
              List.append_assoc]
            exact congrArg (s.unhashed ++ ·) (List.filter_append [e] (p :: es)).symm

/-! ## The list pushed onto the free list -/

/-- Changes of links alone. -/
theorem touched_of_payload (hpq : s'.peventQ = s.peventQ)
    (hpay : ∀ x, payload (s'.event x) = payload (s.event x))
    (hsame : ∀ x, x ∉ l → s'.event x = s.event x) : Touched s s' [] [] l := by
  have hfield : ∀ {β : Type} (f : EventCell T → β), (∀ c, f (payload c) = f c) →
      ∀ x, f (s'.event x) = f (s.event x) := by
    intro β f hf x
    rw [← hf, hpay, hf]
  refine ⟨hpq, hfield EventCell.sig fun _ => rfl, hfield EventCell.destLp fun _ => rfl,
    hfield EventCell.eventId fun _ => rfl, hfield EventCell.remote fun _ => rfl,
    fun x _ => hfield EventCell.causedByMe (fun _ => rfl) x,
    fun x _ => hfield EventCell.causeNext (fun _ => rfl) x,
    fun x _ _ => hfield EventCell.owner (fun _ => rfl) x, fun x hx => ?_, fun x hx => ?_⟩
  · rw [hfield EventCell.owner fun _ => rfl]
    exact hx
  · rw [hsame x hx]
    exact ⟨rfl, rfl⟩

theorem Touched.sent_eq {cs : List Nat} (ht : Touched s s' [] [] l) :
    sent s'.event cs = sent s.event cs :=
  sent_congr fun c _ => by rw [ht.owner c List.not_mem_nil List.not_mem_nil]

theorem Touched.sentOf_eq {kids : Nat → List Nat} {es : List Nat} (ht : Touched s s' [] [] l) :
    sentOf s'.event kids es = sentOf s.event kids es :=
  List.flatMap_congr fun _ _ => ht.sent_eq

theorem Chains.of_touched {kids : Nat → List Nat} {es m : List Nat} (h : Chains s.event kids es m)
    (ht : Touched s s' [] [] l) : Chains s'.event kids es m := by
  refine ⟨fun e he => ?_, h.single, fun e he => ht.unsent e (h.unsent e he), fun e he => ?_⟩
  · rw [ht.causedByMe e List.not_mem_nil]
    exact (h.chain e he).congr fun c _ => ht.causeNext c List.not_mem_nil
  · rw [ht.sent_eq]
    exact h.apart e he

variable (cfg) in
/-- `tw_eventq_push_list` puts the list in front of the free list and the sent children
of its events in front of that. -/
theorem twEventqPushList_ok {n h t : Nat} (kids : Nat → List Nat) {es frs : List Nat}
    {p m : Option Nat} (hlast : (t :: es).getLast? = some h)
    (hseg : Segment (links s.event) p (t :: es).reverse m)
    (hfree : Represents (links s.event) s.freeQ frs) (hnd : ((t :: es).reverse ++ frs).Nodup)
    (hch : Chains s.event kids (t :: es) ((t :: es).reverse ++ frs))
    (hlen : es.length < n) (hn : ∀ x ∈ t :: es, (kids x).length ≤ n) :
    ∃ s', twEventqPushList cfg n s h t (es.length + 1) = .ok s' ∧
      Represents (links s'.event) s'.freeQ
        ((sentOf s.event kids (t :: es)).reverse ++ ((t :: es).reverse ++ frs)) ∧
      s'.committed = s.committed ++ toCommit cfg s.event (t :: es) ∧
      s'.unhashed = s.unhashed ++ toUnhash s.event (t :: es) ∧
      Touched s s' (t :: es) ((t :: es).flatMap kids)
        ((sentOf s.event kids (t :: es)).reverse ++ ((t :: es).reverse ++ frs)) := by
  rw [List.reverse_cons] at hseg hnd hch ⊢
  have hhead : (es.reverse ++ [t]).head? = some h := by
    rw [← List.reverse_cons, List.head?_reverse]
    exact hlast
  obtain ⟨s₁, hs₁⟩ : ∃ s₁ : FossilHeap T nkp, s₁ = { s with
      event := setPrev (setHeadPrev (setNext s.event t s.freeQ.head) s.freeQ t) h none
      freeQ := ⟨some h, s.freeQ.tail.or (some t), s.freeQ.size + (es.length + 1)⟩ } := ⟨_, rfl⟩
  have hrep : Represents (links s₁.event) s₁.freeQ (es.reverse ++ [t] ++ frs) := by
    have happ := hfree.append hseg hhead hnd
    rw [← links_setNext, ← links_setHeadPrev, ← links_setPrev, List.length_reverse] at happ
    rw [hs₁]
    exact happ
  have ht : Touched s s₁ [] [] (es.reverse ++ [t] ++ frs) := by
    refine touched_of_payload (by rw [hs₁]) (fun x => ?_) fun x hx => ?_
    · rw [hs₁]
      dsimp only
      rw [payload_setPrev, payload_setHeadPrev, payload_setNext]
    · rw [List.mem_append, not_or] at hx
      have hxt : x ≠ t := by
        rintro rfl
        exact hx.1 (List.mem_append_right _ (List.mem_singleton_self x))
      have hxh : x ≠ h := by
        rintro rfl
        exact hx.1 (List.mem_of_mem_head? hhead)
      rw [hs₁]
      dsimp only
      rw [setPrev_of_ne hxh, setHeadPrev_of_notMem hfree.head hx.2, setNext_of_ne hxt]
  obtain ⟨s', hloop, hrep', hcom, hunh, ht'⟩ := commitLoop_ok cfg (n := n) (m := n)
    (s := s₁) [] frs hlast
    (by rw [List.nil_append, List.reverse_cons]; exact hrep)
    (by rw [List.nil_append, List.reverse_cons]; exact hch.of_touched ht) hlen hn
  rw [List.nil_append, List.reverse_cons, ht.sentOf_eq] at hrep' ht'
  have hcom₁ : s₁.committed = s.committed := by rw [hs₁]
  have hunh₁ : s₁.unhashed = s.unhashed := by rw [hs₁]
  refine ⟨s', ?_, hrep', ?_, ?_, ?_⟩
  · unfold twEventqPushList
    rw [bind_of_ok (twEventqDebug_ok cfg hfree)]
    rw [hs₁] at hloop
    refine (bind_of_ok hloop _).trans ?_
    exact bind_of_ok (twEventqDebug_ok cfg hrep') _
  · rw [hcom, hcom₁, toCommit_congr fun x _ => ht.destLp x]
  · rw [hunh, hunh₁, toUnhash_congr (fun x _ => ht.eventId x) fun x _ => ht.remote x]
  · exact ht.trans ht' (List.subset_append_right _ _)

/-! ## The list of a KP -/

section Collect

variable [TwStime T] {gvt : TwEventSig T}

/-- The events below the GVT, and those that stay. -/
def old (event : Nat → EventCell T) (gvt : TwEventSig T) (es : List Nat) : List Nat :=
  es.filter fun e => decide ((event e).sig < gvt)

def young (event : Nat → EventCell T) (gvt : TwEventSig T) (es : List Nat) : List Nat :=
  es.filter fun e => decide (gvt ≤ (event e).sig)

/-- The list is in descending order of the signatures. -/
def Descending (event : Nat → EventCell T) (es : List Nat) : Prop :=
  es.Pairwise fun a b => (event b).sig ≤ (event a).sig

instance (event : Nat → EventCell T) (es : List Nat) : Decidable (Descending event es) :=
  inferInstanceAs (Decidable (es.Pairwise fun a b => (event b).sig ≤ (event a).sig))

theorem young_append_old (gvt : TwEventSig T) {es : List Nat} (h : Descending event es) :
    young event gvt es ++ old event gvt es = es := by
  induction es with
  | nil => rfl
  | cons e es ih =>
      have hes := ih (List.pairwise_cons.mp h).2
      unfold young old at hes ⊢
      by_cases he : (event e).sig < gvt
      · have hall : ∀ x ∈ e :: es, (event x).sig < gvt := by
          intro x hx
          rcases List.mem_cons.mp hx with rfl | hx
          · exact he
          · exact ((List.pairwise_cons.mp h).1 x hx).trans_lt he
        rw [List.filter_eq_nil_iff.mpr fun x hx => ?_, List.nil_append,
          List.filter_eq_self.mpr fun x hx => decide_eq_true (hall x hx)]
        rw [decide_eq_true_eq, not_le]
        exact hall x hx
      · rw [List.filter_cons_of_pos (by rw [decide_eq_true_eq]; exact not_lt.mp he),
          List.filter_cons_of_neg (by rw [decide_eq_true_eq]; exact he), List.cons_append, hes]

theorem searchLoop_ok {n k : Nat} (cnt : Nat) {front rest back : List Nat}
    (hseg : Segment (links event) none (front ++ [k] ++ rest.reverse ++ back) none)
    (hk : ¬ (event k).sig < gvt) (hrest : ∀ x ∈ rest, (event x).sig < gvt)
    (hn : rest.length < n) :
    searchLoop event gvt n (front ++ [k] ++ rest.reverse).getLast? cnt =
      .ok (some k, cnt + rest.length) := by
  induction rest generalizing n cnt back with
  | nil =>
      cases n with
      | zero => cases hn
      | succ n =>
          rw [List.reverse_nil, List.append_nil, List.getLast?_concat, searchLoop, if_neg]
          · rfl
          · rw [twEventSigComparePtr_neg]
            exact hk
  | cons x rest ih =>
      cases n with
      | zero => cases hn
      | succ n =>
          rw [List.reverse_cons, ← List.append_assoc, List.append_assoc _ [x] back,
            List.singleton_append] at hseg
          have hprev : (event x).prev = (front ++ [k] ++ rest.reverse).getLast? := by
            have h := hseg.prev_eq
            rw [Option.or_none] at h
            exact h
          have hx : twEventSigComparePtr (event x).sig gvt < 0 := by
            rw [twEventSigComparePtr_neg]
            exact hrest x List.mem_cons_self
          rw [List.reverse_cons, ← List.append_assoc, List.getLast?_concat, searchLoop, if_pos hx,
            hprev, ih _ hseg (fun y hy => hrest y (List.mem_cons_of_mem x hy))
              (Nat.lt_of_succ_lt_succ hn), List.length_cons]
          congr 2
          omega

/-- The lists of the KPs and the free list are well formed and share no event, and each
child is in one chain; a child owned by `TW_pe_sevent_q` is in no list. -/
structure Held (s : FossilHeap T nkp) (evs : Fin nkp → List Nat) (frs : List Nat)
    (kids : Nat → List Nat) : Prop where
  pevent : ∀ k, Represents (links s.event) (s.peventQ k) (evs k)
  free : Represents (links s.event) s.freeQ frs
  apart : ∀ k, (evs k).Disjoint frs
  others : ∀ k j, j ≠ k → (evs k).Disjoint (evs j)
  unsent : ∀ k, ∀ e ∈ evs k, (s.event e).owner ≠ .peSeventQ
  chain : ∀ k, ∀ e ∈ evs k, Chain s.event (s.event e).causedByMe (kids e)
  nodup : ∀ k, ∀ e ∈ evs k, (kids e).Nodup
  single : ∀ k, ∀ e ∈ evs k, ∀ j, ∀ x ∈ evs j, e ≠ x → (kids e).Disjoint (kids x)
  sent : ∀ k, ∀ e ∈ evs k, ∀ c ∈ sent s.event (kids e), c ∉ frs

variable {evs : Fin nkp → List Nat} {frs : List Nat} {kids : Nat → List Nat} {kp : Fin nkp}

section

omit [TwStime T]

theorem Held.chains (h : Held s evs frs kids) {es : List Nat} (hes : es ⊆ evs kp) (hnd : es.Nodup)
    (hl : l ⊆ evs kp ++ frs) : Chains s.event kids es l := by
  refine ⟨fun e he => h.chain kp e (hes he), ?_, fun e he => h.unsent kp e (hes he),
    fun e he c hc hcl => ?_⟩
  · rw [List.nodup_flatMap]
    refine ⟨fun e he => h.nodup kp e (hes he), ?_⟩
    refine hnd.imp_of_mem fun {a b} ha hb hab => ?_
    exact h.single kp a (hes ha) kp b (hes hb) hab
  · rcases List.mem_append.mp (hl hcl) with hce | hcf
    · exact h.unsent kp c hce (mem_sent.mp hc).2
    · exact h.sent kp e (hes he) c hc hcf

/-- An event that is not collected does not get to the free list. -/
theorem Held.notMem_freed (h : Held s evs frs kids) {k : Fin nkp} {x : Nat} {es ds : List Nat}
    (hx : x ∈ evs k) (hxe : x ∉ es) :
    x ∉ (sentOf s.event kids ds).reverse ++ (es ++ frs) := by
  intro hmem
  rcases List.mem_append.mp hmem with hs | hmem
  · obtain ⟨e, -, he⟩ := List.mem_flatMap.mp (List.mem_reverse.mp hs)
    exact h.unsent k x hx (mem_sent.mp he).2
  · rcases List.mem_append.mp hmem with he | hf
    · exact hxe he
    · exact h.apart k hx hf

end

omit [TwStime T] in
/-- The lists after the events `es` of a KP went to the free list and `ks` stay. -/
theorem Held.collected (h : Held s evs frs kids) (s'' : FossilHeap T nkp) {ks es : List Nat}
    (hevs : evs kp = ks ++ es)
    (hkp : Represents (links s'.event) (s'.peventQ kp) ks)
    (hpq : ∀ k, k ≠ kp → s'.peventQ k = s.peventQ k)
    (hfree : Represents (links s'.event) s'.freeQ
      ((sentOf s.event kids es.reverse).reverse ++ (es ++ frs)))
    (ht : Touched s s'' es.reverse (es.reverse.flatMap kids)
      (ks ++ ((sentOf s.event kids es.reverse).reverse ++ (es ++ frs))))
    (hevent : s''.event = s'.event) :
    Held s' (Function.update evs kp ks)
      ((sentOf s.event kids es.reverse).reverse ++ (es ++ frs)) kids := by
  have hnd : (ks ++ es).Nodup := hevs ▸ (h.pevent kp).nodup
  have hes : ∀ x ∈ es, x ∈ evs kp := fun x hx => hevs ▸ List.mem_append_right ks hx
  have hsub : ∀ k, ∀ x ∈ Function.update evs kp ks k, x ∈ evs k ∧ x ∉ es := by
    intro k x hx
    by_cases hk : k = kp
    · subst hk
      rw [Function.update_self] at hx
      exact ⟨hevs ▸ List.mem_append_left es hx,
        fun hxe => (List.nodup_append'.mp hnd).2.2 hx hxe⟩
    · rw [Function.update_of_ne hk] at hx
      exact ⟨hx, fun hxe => h.others k kp (Ne.symm hk) hx (hes x hxe)⟩
  have hapart : ∀ k, ∀ x ∈ Function.update evs kp ks k,
      x ∉ (sentOf s.event kids es.reverse).reverse ++ (es ++ frs) :=
    fun k x hx => h.notMem_freed (hsub k x hx).1 (hsub k x hx).2
  have hother : ∀ k, ∀ x ∈ Function.update evs kp ks k, ∀ e ∈ es, (kids x).Disjoint (kids e) := by
    intro k x hx e he
    obtain ⟨hxk, hxe⟩ := hsub k x hx
    exact h.single k x hxk kp e (hes e he) fun heq => hxe (heq ▸ he)
  refine ⟨fun k => ?_, hfree, fun k x hx => hapart k x hx, fun k j hjk x hx hxj => ?_,
    fun k x hx => ?_, fun k x hx => ?_, fun k x hx => h.nodup k x (hsub k x hx).1,
    fun k x hx j y hy => h.single k x (hsub k x hx).1 j y (hsub j y hy).1, fun k x hx c hc => ?_⟩
  · by_cases hk : k = kp
    · subst hk
      rw [Function.update_self]
      exact hkp
    · rw [hpq k hk, Function.update_of_ne hk]
      refine (h.pevent k).congr fun x hx => ?_
      have hx' : x ∈ Function.update evs kp ks k := by
        rw [Function.update_of_ne hk]
        exact hx
      have hxks : x ∉ ks := fun hxk =>
        h.others k kp (Ne.symm hk) hx (hevs ▸ List.mem_append_left es hxk)
      rw [← hevent]
      refine ht.links x fun hmem => ?_
      rcases List.mem_append.mp hmem with hxk | hxl
      · exact hxks hxk
      · exact hapart k x hx' hxl
  · exact h.others k j hjk (hsub k x hx).1 (hsub j x hxj).1
  · rw [← hevent]
    exact ht.unsent x (h.unsent k x (hsub k x hx).1)
  · rw [← hevent, ht.causedByMe x fun hxe => (hsub k x hx).2 (List.mem_reverse.mp hxe)]
    refine (h.chain k x (hsub k x hx).1).congr fun c hc => ht.causeNext c fun hce => ?_
    obtain ⟨e, he, hce⟩ := List.mem_flatMap.mp hce
    exact hother k x hx e (List.mem_reverse.mp he) hc hce
  · obtain ⟨hck, how⟩ := mem_sent.mp hc
    have how' : (s.event c).owner = .peSeventQ := by
      by_contra hne
      rw [← hevent] at how
      exact ht.unsent c hne how
    intro hmem
    rcases List.mem_append.mp hmem with hs | hmem
    · obtain ⟨e, he, hce⟩ := List.mem_flatMap.mp (List.mem_reverse.mp hs)
      exact hother k x hx e (List.mem_reverse.mp he) hck (mem_sent.mp hce).1
    · rcases List.mem_append.mp hmem with he | hf
      · exact h.unsent kp c (hes c he) how'
      · exact h.sent k x (hsub k x hx).1 c (mem_sent.mpr ⟨hck, how'⟩) hf

/-- What `tw_eventq_fossil_collect` leaves of the state `s` for the list of `kp`, when the
events `es` of the list are collected and `ks` stay. -/
structure Collected (cfg : FossilConfig) (s s' : FossilHeap T nkp) (evs : Fin nkp → List Nat)
    (frs : List Nat) (kids : Nat → List Nat) (kp : Fin nkp) (ks es : List Nat) : Prop where
  held : Held s' (Function.update evs kp ks)
    ((sentOf s.event kids es.reverse).reverse ++ (es ++ frs)) kids
  committed : s'.committed = s.committed ++ toCommit cfg s.event es.reverse
  unhashed : s'.unhashed = s.unhashed ++ toUnhash s.event es.reverse
  sig : ∀ x, (s'.event x).sig = (s.event x).sig
  destLp : ∀ x, (s'.event x).destLp = (s.event x).destLp

/-- A number of turns that is enough for the loops. -/
def turns (evs : Fin nkp → List Nat) (kids : Nat → List Nat) (kp : Fin nkp) : Nat :=
  (evs kp).length + ((evs kp).map fun e => (kids e).length).sum + 1

theorem length_kids_le {e : Nat} (he : e ∈ evs kp) : (kids e).length ≤ turns evs kids kp := by
  have hmem : (kids e).length ∈ (evs kp).map fun e => (kids e).length :=
    List.mem_map_of_mem he
  have hle := List.single_le_sum (fun _ _ => Nat.zero_le _) _ hmem
  unfold turns
  omega

/-- Nothing is collected from a list without events below the GVT. -/
theorem fossilCollect_nothing (h : Held s evs frs kids)
    (hyoung : ∀ e ∈ evs kp, gvt ≤ (s.event e).sig) (n : Nat) :
    twEventqFossilCollect cfg n gvt s kp = .ok s := by
  unfold twEventqFossilCollect
  dsimp only
  cases ht : (s.peventQ kp).tail with
  | none => rfl
  | some t =>
      have hmem : t ∈ evs kp := List.mem_of_getLast? ((h.pevent kp).tail.symm.trans ht)
      exact if_pos (twEventSigComparePtr_nonneg.mpr (hyoung t hmem))

/-- The whole list is collected. -/
theorem fossilCollect_all {n t : Nat} {es : List Nat} (h : Held s evs frs kids)
    (hevs : evs kp = (t :: es).reverse) (hold : ∀ e ∈ evs kp, (s.event e).sig < gvt)
    (hn : turns evs kids kp ≤ n) :
    ∃ s', twEventqFossilCollect cfg n gvt s kp = .ok s' ∧
      Collected cfg s s' evs frs kids kp [] (t :: es).reverse := by
  have hkp := h.pevent kp
  have hnd : (t :: es).Nodup := List.nodup_reverse.mp (hevs ▸ hkp.nodup)
  have hsub : t :: es ⊆ evs kp := fun x hx => hevs ▸ List.mem_reverse.mpr hx
  obtain ⟨h₀, hlast⟩ : ∃ h₀, (t :: es).getLast? = some h₀ :=
    ⟨_, List.getLast?_eq_some_getLast (List.cons_ne_nil t es)⟩
  have hhead : (s.peventQ kp).head = some h₀ := by
    rw [hkp.head, hevs, List.head?_reverse, hlast]
  have htail : (s.peventQ kp).tail = some t := by
    rw [hkp.tail, hevs, List.getLast?_reverse, List.head?_cons]
  have hsize : (s.peventQ kp).size = es.length + 1 := by
    rw [hkp.size, hevs, List.length_reverse, List.length_cons]
  have hlen : es.length < n := by
    unfold turns at hn
    rw [hevs, List.length_reverse, List.length_cons] at hn
    omega
  obtain ⟨s₂, hpush, hfree, hcom, hunh, ht⟩ := twEventqPushList_ok cfg kids
    hlast (hevs ▸ hkp.segment) h.free
    (hevs ▸ List.nodup_append'.mpr ⟨hkp.nodup, h.free.nodup, h.apart kp⟩)
    (h.chains hsub hnd (by rw [hevs]; exact fun _ hx => hx)) hlen
    fun x hx => (length_kids_le (hsub hx)).trans hn
  have hto : ¬ 0 ≤ twEventSigComparePtr (s.event t).sig gvt := by
    rw [twEventSigComparePtr_nonneg, not_le]
    exact hold t (hsub List.mem_cons_self)
  have hho : twEventSigComparePtr (s.event h₀).sig gvt < 0 :=
    twEventSigComparePtr_neg.mpr (hold h₀ (hsub (List.mem_of_getLast? hlast)))
  refine ⟨{ s₂ with peventQ := Function.update s₂.peventQ kp ⟨none, none, 0⟩ }, ?_, ?_, ?_, ?_,
    ht.sig, ht.destLp⟩
  · unfold twEventqFossilCollect
    dsimp only
    rw [htail]
    dsimp only
    rw [if_neg hto, hhead]
    dsimp only
    rw [if_pos hho, hsize]
    exact bind_of_ok hpush _
  · rw [← List.reverse_reverse (t :: es)] at hfree ht
    rw [List.reverse_reverse (t :: es).reverse] at hfree ht
    refine h.collected s₂ hevs ?_ (fun k hk => ?_) hfree ?_ rfl
    · dsimp only
      rw [Function.update_self]
      exact represents_nil _
    · dsimp only
      rw [Function.update_of_ne hk, ht.peventQ]
    · exact ht
  · rw [List.reverse_reverse]
    exact hcom
  · rw [List.reverse_reverse]
    exact hunh

/-- The end of the list is collected, from the first event below the GVT on. -/
theorem fossilCollect_part {n t k : Nat} {es front : List Nat} (h : Held s evs frs kids)
    (hevs : evs kp = front ++ [k] ++ (t :: es).reverse)
    (hyoung : ∀ e ∈ front ++ [k], gvt ≤ (s.event e).sig)
    (hold : ∀ e ∈ t :: es, (s.event e).sig < gvt) (hn : turns evs kids kp ≤ n) :
    ∃ s', twEventqFossilCollect cfg n gvt s kp = .ok s' ∧
      Collected cfg s s' evs frs kids kp (front ++ [k]) (t :: es).reverse := by
  have hkp := h.pevent kp
  have hnodup : (front ++ [k] ++ (t :: es).reverse).Nodup := hevs ▸ hkp.nodup
  have hnd : (t :: es).Nodup := List.nodup_reverse.mp (List.nodup_append'.mp hnodup).2.1
  have hkt : k ∉ t :: es := fun hmem => (List.nodup_append'.mp hnodup).2.2
    (List.mem_append_right front (List.mem_singleton_self k)) (List.mem_reverse.mpr hmem)
  have hsub : t :: es ⊆ evs kp := fun x hx =>
    hevs ▸ List.mem_append_right _ (List.mem_reverse.mpr hx)
  have hk : k ∈ evs kp := by
    rw [hevs]
    exact List.mem_append_left _ (List.mem_append_right _ (List.mem_singleton_self k))
  have hkf : k ∉ frs := fun hmem => h.apart kp hk hmem
  obtain ⟨h₀, hlast⟩ : ∃ h₀, (t :: es).getLast? = some h₀ :=
    ⟨_, List.getLast?_eq_some_getLast (List.cons_ne_nil t es)⟩
  obtain ⟨y, hy, hyhead⟩ : ∃ y ∈ front ++ [k], (s.peventQ kp).head = some y := by
    rw [hkp.head, hevs]
    cases front with
    | nil => exact ⟨k, List.mem_singleton_self k, rfl⟩
    | cons a front => exact ⟨a, List.mem_cons_self, rfl⟩
  have htail : (s.peventQ kp).tail = some t := by
    rw [hkp.tail, hevs, List.reverse_cons, ← List.append_assoc, List.getLast?_concat]
  have hlen : es.length < n := by
    unfold turns at hn
    rw [hevs, List.length_append, List.length_reverse, List.length_cons] at hn
    omega
  have hseg : Segment (links s.event) none (front ++ [k] ++ es.reverse ++ [t]) none := by
    have hseg := hkp.segment
    rw [hevs, List.reverse_cons, ← List.append_assoc] at hseg
    exact hseg
  have htprev : (s.event t).prev = (front ++ [k] ++ es.reverse).getLast? := by
    have hprev := hseg.prev_eq
    rw [Option.or_none] at hprev
    exact hprev
  have hsearch := searchLoop_ok (n := n) 1 hseg (not_lt.mpr (hyoung k
    (List.mem_append_right front (List.mem_singleton_self k))))
    (fun x hx => hold x (List.mem_cons_of_mem t hx)) hlen
  have hknext : (s.event k).next = some h₀ := by
    have hseg' := hkp.segment
    rw [hevs, List.append_assoc, List.singleton_append] at hseg'
    have hnext := hseg'.next_eq
    rw [List.head?_reverse, hlast] at hnext
    exact hnext
  obtain ⟨hcut, hback⟩ := (hevs ▸ hkp : Represents (links s.event) (s.peventQ kp)
    (front ++ [k] ++ (t :: es).reverse)).cut
  rw [← links_setNext, List.length_reverse, List.length_cons] at hcut
  rw [← links_setNext] at hback
  obtain ⟨s₁, hs₁⟩ : ∃ s₁ : FossilHeap T nkp, s₁ = { s with
      event := setNext s.event k none
      peventQ := Function.update s.peventQ kp
        ⟨(s.peventQ kp).head, some k, (s.peventQ kp).size - (1 + es.length)⟩ } := ⟨_, rfl⟩
  have hev₁ : s₁.event = setNext s.event k none := by rw [hs₁]
  have hfree₁ : Represents (links s₁.event) s₁.freeQ frs := by
    rw [hs₁]
    refine h.free.congr fun x hx => ?_
    have hxk : x ≠ k := fun heq => hkf (heq ▸ hx)
    simp only [links, setNext_of_ne hxk, and_self]
  have ht₁ : Touched s { s₁ with peventQ := s.peventQ } [] [] [k] :=
    touched_of_payload rfl (fun x => by dsimp only; rw [hev₁, payload_setNext]) fun x hx => by
      dsimp only
      have hxk : x ≠ k := by
        rintro rfl
        exact hx (List.mem_singleton_self x)
      rw [hev₁, setNext_of_ne hxk]
  have hincl : (t :: es).reverse ++ frs ⊆ evs kp ++ frs := by
    intro x hx
    rcases List.mem_append.mp hx with hxt | hxf
    · exact List.mem_append_left _ (hsub (List.mem_reverse.mp hxt))
    · exact List.mem_append_right _ hxf
  have hch := (h.chains hsub hnd hincl).of_touched ht₁
  obtain ⟨s₂, hpush, hfree, hcom, hunh, ht⟩ := twEventqPushList_ok cfg (s := s₁)
    kids hlast (hev₁ ▸ hback) hfree₁
    (List.nodup_append'.mpr ⟨List.nodup_reverse.mpr hnd, h.free.nodup,
      fun x hx => h.apart kp (hsub (List.mem_reverse.mp hx))⟩) hch hlen
    fun x hx => (length_kids_le (hsub hx)).trans hn
  have hsent : sentOf s₁.event kids (t :: es) = sentOf s.event kids (t :: es) :=
    ht₁.sentOf_eq
  rw [hsent] at hfree ht
  have ht₂ : Touched { s₁ with peventQ := s.peventQ } { s₂ with peventQ := s.peventQ } (t :: es)
      ((t :: es).flatMap kids)
      ((sentOf s.event kids (t :: es)).reverse ++ ((t :: es).reverse ++ frs)) :=
    ⟨rfl, ht.sig, ht.destLp, ht.eventId, ht.remote, ht.causedByMe, ht.causeNext, ht.owner,
      ht.unsent, ht.links⟩
  have hto : ¬ 0 ≤ twEventSigComparePtr (s.event t).sig gvt := by
    rw [twEventSigComparePtr_nonneg, not_le]
    exact hold t List.mem_cons_self
  have hyo : ¬ twEventSigComparePtr (s.event y).sig gvt < 0 := by
    rw [twEventSigComparePtr_neg, not_lt]
    exact hyoung y hy
  refine ⟨s₂, ?_, ?_, ?_, ?_, fun x => (ht.sig x).trans (ht₁.sig x),
    fun x => (ht.destLp x).trans (ht₁.destLp x)⟩
  · unfold twEventqFossilCollect
    dsimp only
    rw [htail]
    dsimp only
    rw [if_neg hto, hyhead]
    dsimp only
    rw [if_neg hyo, htprev, bind_of_ok hsearch]
    dsimp only
    rw [hknext]
    dsimp only
    rw [← hyhead, Nat.add_comm 1]
    rw [hs₁, Nat.add_comm 1] at hpush
    exact hpush
  · refine h.collected { s₂ with peventQ := s.peventQ } hevs ?_ (fun k' hk' => ?_)
      (by rw [List.reverse_reverse]; exact hfree) ?_ rfl
    · rw [ht.peventQ]
      have hq : s₁.peventQ kp =
          ⟨(s.peventQ kp).head, some k, (s.peventQ kp).size - (es.length + 1)⟩ := by
        rw [hs₁]
        dsimp only
        rw [Function.update_self, Nat.add_comm 1]
      rw [hq]
      refine hcut.congr fun x hx => ?_
      have hxe : x ∈ evs kp := hevs ▸ List.mem_append_left _ hx
      have hxo : x ∉ (t :: es).reverse := fun hmem => (List.nodup_append'.mp hnodup).2.2 hx hmem
      have hlinks := ht.links x (h.notMem_freed hxe hxo)
      rw [hev₁] at hlinks
      exact hlinks
    · rw [ht.peventQ, hs₁]
      exact Function.update_of_ne hk' _ _
    · rw [List.reverse_reverse]
      refine ((ht₁.mono (List.Subset.refl _) (List.Subset.refl _) fun x hx => ?_).trans
        (ht₂.mono (List.Subset.refl _) (List.Subset.refl _) (List.subset_append_right _ _))
        (List.Subset.refl _))
      exact List.mem_append_left _ (List.mem_append_right _ hx)
  · rw [List.reverse_reverse, hcom, toCommit_congr fun x _ => ht₁.destLp x, hs₁]
  · rw [List.reverse_reverse, hunh,
      toUnhash_congr (fun x _ => ht₁.eventId x) fun x _ => ht₁.remote x, hs₁]

/-- A call for one KP, with enough turns. -/
theorem twEventqFossilCollect_ok (cfg : FossilConfig) (gvt : TwEventSig T) {n : Nat}
    (h : Held s evs frs kids)
    (hsort : Descending s.event (evs kp)) (hn : turns evs kids kp ≤ n) :
    ∃ s', twEventqFossilCollect cfg n gvt s kp = .ok s' ∧
      Collected cfg s s' evs frs kids kp (young s.event gvt (evs kp))
        (old s.event gvt (evs kp)) := by
  have hsplit := young_append_old gvt hsort
  have hyoung : ∀ e ∈ young s.event gvt (evs kp), gvt ≤ (s.event e).sig :=
    fun e he => of_decide_eq_true (List.mem_filter.mp he).2
  have hold : ∀ e ∈ old s.event gvt (evs kp), (s.event e).sig < gvt :=
    fun e he => of_decide_eq_true (List.mem_filter.mp he).2
  generalize young s.event gvt (evs kp) = ks at hsplit hyoung ⊢
  generalize old s.event gvt (evs kp) = os at hsplit hold ⊢
  cases hos : os.reverse with
  | nil =>
      rw [List.reverse_eq_nil_iff] at hos
      subst hos
      rw [List.append_nil] at hsplit
      refine ⟨s, fossilCollect_nothing h (hsplit ▸ hyoung) n, ?_, ?_, ?_, fun _ => rfl,
        fun _ => rfl⟩
      · rw [hsplit, Function.update_eq_self]
        exact h
      · exact (List.append_nil _).symm
      · exact (List.append_nil _).symm
  | cons t es =>
      have hos' : os = (t :: es).reverse := by rw [← hos, List.reverse_reverse]
      subst hos'
      rcases List.eq_nil_or_concat ks with rfl | ⟨front, k, rfl⟩
      · exact fossilCollect_all h hsplit.symm (by rw [← hsplit]; exact hold) hn
      · rw [List.concat_eq_append] at hsplit hyoung ⊢
        exact fossilCollect_part h hsplit.symm hyoung
          (fun e he => hold e (List.mem_reverse.mpr he)) hn

theorem turns_update {k : Fin nkp} (hk : k ≠ kp) (ks : List Nat) :
    turns (Function.update evs kp ks) kids k = turns evs kids k := by
  unfold turns
  rw [Function.update_of_ne hk]

theorem old_congr {es : List Nat} (hsig : ∀ x, (event' x).sig = (event x).sig) :
    old event' gvt es = old event gvt es :=
  List.filter_congr fun x _ => by rw [hsig x]

theorem young_congr {es : List Nat} (hsig : ∀ x, (event' x).sig = (event x).sig) :
    young event' gvt es = young event gvt es :=
  List.filter_congr fun x _ => by rw [hsig x]

/-- The loop over the KPs collects from the list of each. -/
theorem fossilLoop_ok (cfg : FossilConfig) (gvt : TwEventSig T) {n : Nat} {kps : List (Fin nkp)}
    (hnd : kps.Nodup) (h : Held s evs frs kids) (hsort : ∀ k, Descending s.event (evs k))
    (hn : ∀ k ∈ kps, turns evs kids k ≤ n) :
    ∃ s' frs', fossilLoop cfg n gvt kps s = .ok s' ∧
      Held s' (fun k => if k ∈ kps then young s.event gvt (evs k) else evs k) frs' kids ∧
      s'.committed = s.committed ++
        kps.flatMap fun k => toCommit cfg s.event (old s.event gvt (evs k)).reverse := by
  induction kps generalizing s evs frs with
  | nil =>
      refine ⟨s, frs, rfl, ?_, (List.append_nil _).symm⟩
      simp only [List.not_mem_nil, if_false]
      exact h
  | cons kp kps ih =>
      obtain ⟨hkp, hnd⟩ := List.nodup_cons.mp hnd
      obtain ⟨s₁, hs₁, hc⟩ := twEventqFossilCollect_ok cfg gvt h (hsort kp)
        (hn kp List.mem_cons_self)
      have hne : ∀ k ∈ kps, k ≠ kp := fun k hk heq => hkp (heq ▸ hk)
      have hsort₁ : ∀ k, Descending s₁.event
          (Function.update evs kp (young s.event gvt (evs kp)) k) := by
        intro k
        have hdesc : Descending s.event
            (Function.update evs kp (young s.event gvt (evs kp)) k) := by
          by_cases hk : k = kp
          · subst hk
            rw [Function.update_self]
            exact List.Pairwise.filter _ (hsort k)
          · rw [Function.update_of_ne hk]
            exact hsort k
        exact hdesc.imp fun {a b} hab => by rw [hc.sig, hc.sig]; exact hab
      obtain ⟨s', frs', hs', hheld, hcom⟩ := ih hnd hc.held hsort₁ fun k hk => by
        rw [turns_update (hne k hk)]
        exact hn k (List.mem_cons_of_mem kp hk)
      refine ⟨s', frs', (bind_of_ok hs₁ _).trans hs', ?_, ?_⟩
      · have hevs : (fun k => if k ∈ kp :: kps then young s.event gvt (evs k) else evs k) =
            fun k => if k ∈ kps then
              young s₁.event gvt (Function.update evs kp (young s.event gvt (evs kp)) k)
            else Function.update evs kp (young s.event gvt (evs kp)) k := by
          funext k
          by_cases hk : k = kp
          · subst hk
            rw [if_pos List.mem_cons_self, if_neg hkp, Function.update_self]
          · rw [Function.update_of_ne hk, young_congr hc.sig]
            simp only [List.mem_cons, hk, false_or]
        rw [hevs]
        exact hheld
      · have hflat : (kps.flatMap fun k => toCommit cfg s₁.event (old s₁.event gvt
            (Function.update evs kp (young s.event gvt (evs kp)) k)).reverse) =
            kps.flatMap fun k => toCommit cfg s.event (old s.event gvt (evs k)).reverse :=
          List.flatMap_congr fun k hk => by
            rw [Function.update_of_ne (hne k hk), old_congr hc.sig,
              toCommit_congr fun x _ => hc.destLp x]
        rw [hcom, hflat, hc.committed, List.flatMap_cons, List.append_assoc]

/-- `tw_pe_fossil_collect` collects from every KP and keeps the lists. -/
theorem twPeFossilCollect_ok (cfg : FossilConfig) (gvt : TwEventSig T) (h : Held s evs frs kids)
    (hsort : ∀ k, Descending s.event (evs k)) :
    ∃ bound, ∀ n, bound ≤ n → ∃ s' frs', twPeFossilCollect cfg n gvt s = .ok s' ∧
      Held s' (fun k => young s.event gvt (evs k)) frs' kids ∧
      s'.committed = s.committed ++
        (List.finRange nkp).flatMap
          fun k => toCommit cfg s.event (old s.event gvt (evs k)).reverse := by
  refine ⟨((List.finRange nkp).map fun k => turns evs kids k).sum, fun n hn => ?_⟩
  obtain ⟨s', frs', hs', hheld, hcom⟩ := fossilLoop_ok cfg gvt (List.nodup_finRange nkp) h hsort
    fun k hk => (List.single_le_sum (fun _ _ => Nat.zero_le _) _
      (List.mem_map_of_mem hk)).trans hn
  refine ⟨s', frs', hs', ?_, hcom⟩
  simp only [List.mem_finRange, if_true] at hheld
  exact hheld

/-- The events below the GVT go to the free list with their sent children, their commit
handlers are called once each in ascending order, the others stay in their order, and
the lists pass the checks of `tw_eventq_debug`. -/
theorem fossil_collect_correct (cfg : FossilConfig) (gvt : TwEventSig T) (kp : Fin nkp)
    (h : Held s evs frs kids) (hsort : Descending s.event (evs kp)) :
    ∃ bound, ∀ n, bound ≤ n → ∃ s', twEventqFossilCollect cfg n gvt s kp = .ok s' ∧
      Collected cfg s s' evs frs kids kp (young s.event gvt (evs kp))
        (old s.event gvt (evs kp)) ∧
      (old s.event gvt (evs kp)).reverse.Nodup ∧
      ((old s.event gvt (evs kp)).reverse.Pairwise fun a b => (s.event a).sig ≤ (s.event b).sig) ∧
      (∀ k, twEventqDebug ⟨true, cfg.commits⟩ s'.event (s'.peventQ k) = .ok ()) ∧
      twEventqDebug ⟨true, cfg.commits⟩ s'.event s'.freeQ = .ok () := by
  refine ⟨turns evs kids kp, fun n hn => ?_⟩
  obtain ⟨s', hs', hc⟩ := twEventqFossilCollect_ok cfg gvt h hsort hn
  refine ⟨s', hs', hc, ?_, ?_, fun k => twEventqDebug_ok _ (hc.held.pevent k),
    twEventqDebug_ok _ hc.held.free⟩
  · exact List.nodup_reverse.mpr ((h.pevent kp).nodup.filter _)
  · exact List.pairwise_reverse.mpr (List.Pairwise.filter _ hsort)

/-- A KP with three events, of which two are below 25; the event 1 sent the event 3 to
another PE. -/
def threeEvents : FossilHeap Int 1 where
  event := fun e => match e with
    | 0 => ⟨⟨30, 0, [0]⟩, none, some 1, none, none, .kpPeventQ, 0, 0, false⟩
    | 1 => ⟨⟨20, 0, [0]⟩, some 0, some 2, some 3, none, .kpPeventQ, 0, 0, false⟩
    | 2 => ⟨⟨10, 0, [0]⟩, some 1, none, some 1, none, .kpPeventQ, 0, 7, true⟩
    | 3 => ⟨⟨40, 0, [0]⟩, none, none, none, some 0, .peSeventQ, 0, 0, false⟩
    | _ => ⟨⟨0, 0, [0]⟩, none, none, none, none, .peFreeQ, 0, 0, false⟩
  freeQ := ⟨some 4, some 4, 1⟩
  peventQ := fun _ => ⟨some 0, some 2, 3⟩
  committed := []
  unhashed := []

/-- The children of the three events. -/
def threeKids : Nat → List Nat
  | 1 => [3, 0]
  | 2 => [1]
  | _ => []

theorem threeEvents_held : Held threeEvents (fun _ => [0, 1, 2]) [4] threeKids := by
  refine ⟨by decide, by decide, fun k => List.disjoint_left.mpr (by decide),
    fun k j hjk => absurd (Subsingleton.elim j k) hjk, by decide, by decide, by decide, ?_,
    by decide⟩
  intro k e he j x hx hne
  have hall : ∀ e ∈ [0, 1, 2], ∀ x ∈ [0, 1, 2], e ≠ x → ∀ a ∈ threeKids e, a ∉ threeKids x := by
    decide
  exact List.disjoint_left.mpr fun a => hall e he x hx hne a

theorem fossil_collect_correct_three : ∃ n s',
    twEventqFossilCollect ⟨true, fun _ => true⟩ n ⟨25, 0, [0]⟩ threeEvents 0 = .ok s' ∧
      Represents (links s'.event) (s'.peventQ 0) [0] ∧
      Represents (links s'.event) s'.freeQ [3, 1, 2, 4] ∧ s'.committed = [2, 1] := by
  obtain ⟨n, hn⟩ := fossil_collect_correct ⟨true, fun _ => true⟩ ⟨25, 0, [0]⟩ 0 threeEvents_held
    (by decide)
  obtain ⟨s', hs', hc, -⟩ := hn n le_rfl
  exact ⟨n, s', hs', hc.held.pevent 0, hc.held.free, hc.committed⟩

end Collect

end FossilHeap

end Ross
