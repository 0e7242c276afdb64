import Ross.Core.Machine
import Ross.Lib.Pool

/-!
# Where events are linked

An event for an LP of the PE is in one of the queues between its arrival and its commit, and its
`owner` says in which kind of queue; an event for another PE is in the queues of the network
layer.  New events have names that nothing linked has.
-/

namespace Ross

variable {T S M R : Type} [TwStime T]

/-! ## Owners and queues -/

/-- The queues that an event is in between its arrival and its commit. -/
def QueueId.isHome : QueueId → Bool
  | .pq | .eventQ | .evList | .peventQ _ | .fossil | .hand => true
  | _ => false

/-- The owners of events on their way to another PE. -/
def TwEventOwner.isNet : TwEventOwner → Bool
  | .netOutq | .netAsend | .netAcancel | .peSeventQ => true
  | _ => false

/-- The owners that an event in a queue may have; `here` says whether it is for an LP of the PE. -/
def QueueId.allows (here : Bool) : QueueId → TwEventOwner → Bool
  | .pq, .pePq => true
  | .eventQ, .peEventQ | .eventQ, .peFreeQ | .evList, .peEventQ | .evList, .peFreeQ => here
  | .peventQ _, .kpPeventQ | .fossil, .kpPeventQ => true
  | .hand, .unowned | .hand, .kpPeventQ => true
  | .outq, o | .postedSends, o | .seventQ, o => !here && (o.isNet || decide (o = .peFreeQ))
  | .antiMsg, _ => true
  | _, _ => false

namespace QueueId

variable {here : Bool} {q j : QueueId} {o : TwEventOwner}

theorem isNet_eq_false (hq : q.isHome = true) (hqo : q.allows here o = true) :
    o.isNet = false := by
  cases q <;> cases o <;> simp_all [isHome, allows, TwEventOwner.isNet]

theorem here_of_peFreeQ (hq : q.isHome = true) (hqo : q.allows here .peFreeQ = true) :
    here = true := by
  cases q <;> simp_all [isHome, allows]

/-- An event in one of the queues of its PE is in none of the network layer. -/
theorem eq_antiMsg (hq : q.isHome = true) (hj : j.isHome = false)
    (hqo : q.allows here o = true) (hjo : j.allows here o = true) : j = .antiMsg := by
  have hnet := isNet_eq_false hq hqo
  have hno : (!here && (o.isNet || decide (o = .peFreeQ))) ≠ true := by
    intro hand
    rw [hnet, Bool.false_or, Bool.and_eq_true, Bool.not_eq_true', decide_eq_true_eq] at hand
    obtain ⟨hhere, rfl⟩ := hand
    rw [here_of_peFreeQ hq hqo] at hhere
    cases hhere
  cases j with
  | antiMsg => rfl
  | outq => exact absurd hjo hno
  | postedSends => exact absurd hjo hno
  | seventQ => exact absurd hjo hno
  | eventQ => cases hj
  | evList => cases hj
  | pq => cases hj
  | peventQ kp => cases hj
  | fossil => cases hj
  | hand => cases hj

/-- Events in the hands of a scheduler apart, what is linked has an owner. -/
theorem ne_unowned (hqo : q.allows here o = true) (hq : q ≠ .antiMsg) (hhand : q ≠ .hand) :
    o ≠ .unowned := by
  rintro rfl
  cases q <;> simp_all [allows, TwEventOwner.isNet]

theorem allows_evList (h : eventQ.allows here o = true) : evList.allows here o = true := by
  cases o with
  | peEventQ => exact h
  | peFreeQ => exact h
  | unowned | pePq | kpPeventQ | peAntiMsg | netOutq | netAsend | netAcancel | peSeventQ => cases h

theorem allows_fossil {kp : Nat} (h : (peventQ kp).allows here o = true) :
    fossil.allows here o = true := by
  cases o with
  | kpPeventQ => rfl
  | unowned | pePq | peEventQ | peFreeQ | peAntiMsg | netOutq | netAsend | netAcancel
  | peSeventQ => cases h

/-- A queue that takes an event on its way to another PE takes it with any such owner. -/
theorem allows_net {o' : TwEventOwner} (hqo : q.allows false o = true)
    (ho : o.isNet = true ∨ o = .peFreeQ) (ho' : o'.isNet = true ∨ o' = .peFreeQ) :
    q.allows false o' = true := by
  have hhome : q.isHome = false := by
    by_contra hq
    have hhome := Bool.not_eq_false _ ▸ hq
    rcases ho with hnet | rfl
    · rw [isNet_eq_false hhome hqo] at hnet
      cases hnet
    · cases here_of_peFreeQ hhome hqo
  have hor : (o'.isNet || decide (o' = .peFreeQ)) = true := by
    rw [Bool.or_eq_true, decide_eq_true_eq]
    exact ho'
  cases q <;> simp_all [isHome, allows]

end QueueId

namespace Pe

/-- Where the events `known` of a PE are linked; `here` says which events are for its LPs. -/
structure Located (here : TwEvent T → Bool) (queue : QueueId → List (TwEvent T))
    (ev : TwEvent T → EventState T M) (known : TwEvent T → Prop) : Prop where
  home : Pool.Exclusive (Pool.restrict QueueId.isHome queue)
  allows : ∀ q, ∀ e ∈ queue q, q.allows (here e) (ev e).owner = true
  owned : ∀ e, (ev e).owner ≠ .unowned → known e
  hand : ∀ e ∈ queue .hand, known e
  away : ∀ e, (ev e).owner.isNet = true → here e = false

namespace Located

variable {here : TwEvent T → Bool} {queue queue' : QueueId → List (TwEvent T)}
  {ev : TwEvent T → EventState T M} {known known' : TwEvent T → Prop} {e x : TwEvent T}
  {q j : QueueId} {v : EventState T M}

section

omit [TwStime T]

theorem mono (h : Located here queue ev known) (hknown : ∀ x, known x → known' x) :
    Located here queue ev known' :=
  ⟨h.home, h.allows, fun e ho => hknown e (h.owned e ho), fun e he => hknown e (h.hand e he),
    h.away⟩

theorem known_of_mem (h : Located here queue ev known) (hq : q ≠ .antiMsg) (he : e ∈ queue q) :
    known e := by
  by_cases hhand : q = .hand
  · rw [hhand] at he
    exact h.hand e he
  · exact h.owned e (QueueId.ne_unowned (h.allows q e he) hq hhand)

theorem nodup (h : Located here queue ev known) (hq : q.isHome = true) : (queue q).Nodup := by
  have hnodup := h.home.nodup q
  rw [Pool.restrict_of hq] at hnodup
  exact hnodup

/-- The one place of an event for an LP of the PE. -/
theorem place (h : Located here queue ev known) (hq : q.isHome = true) (he : e ∈ queue q)
    (hj : e ∈ queue j) : j = q ∨ j = .antiMsg := by
  by_cases hhome : j.isHome = true
  · exact .inl (h.home.place (Pool.mem_restrict.mpr ⟨hhome, hj⟩) (Pool.mem_restrict.mpr ⟨hq, he⟩))
  · exact .inr (QueueId.eq_antiMsg hq (Bool.eq_false_iff.mpr hhome) (h.allows q e he)
      (h.allows j e hj))

end

/-! ## Moves -/

/-- An event gets another owner, maybe in another queue. -/
theorem relabel (h : Located here queue ev known)
    (hhome : Pool.Exclusive (Pool.restrict QueueId.isHome queue'))
    (hmem : ∀ q x, x ∈ queue' q → x ≠ e → x ∈ queue q)
    (hallows : ∀ q, e ∈ queue' q → q.allows (here e) v.owner = true)
    (hknown : v.owner ≠ .unowned ∨ e ∈ queue' .hand → known e)
    (haway : v.owner.isNet = true → here e = false) :
    Located here queue' (Function.update ev e v) known where
  home := hhome
  allows q x hx := by
    by_cases hxe : x = e
    · rw [hxe, Function.update_self]
      exact hallows q (hxe ▸ hx)
    · rw [Function.update_of_ne hxe]
      exact h.allows q x (hmem q x hx hxe)
  owned x ho := by
    by_cases hxe : x = e
    · rw [hxe, Function.update_self] at ho
      exact hxe ▸ hknown (.inl ho)
    · rw [Function.update_of_ne hxe] at ho
      exact h.owned x ho
  hand x hx := by
    by_cases hxe : x = e
    · exact hxe ▸ hknown (.inr (hxe ▸ hx))
    · exact h.hand x (hmem _ x hx hxe)
  away x ho := by
    by_cases hxe : x = e
    · rw [hxe, Function.update_self] at ho
      exact hxe ▸ haway ho
    · rw [Function.update_of_ne hxe] at ho
      exact h.away x ho

/-- Other fields of a buffer change. -/
theorem touch (h : Located here queue ev known) (e : TwEvent T) (ho : v.owner = (ev e).owner) :
    Located here queue (Function.update ev e v) known := by
  refine h.relabel h.home (fun _ _ hx _ => hx) ?_ ?_ ?_
  · rw [ho]
    exact fun q he => h.allows q e he
  · rw [ho]
    exact fun hor => hor.elim (h.owned e) (h.hand e)
  · rw [ho]
    exact h.away e

/-- An event leaves a queue of its PE for another one. -/
theorem move (h : Located here queue ev known) (hq : q.isHome = true) (he : e ∈ queue q)
    (hj : j.isHome = true) (hallows : j.allows (here e) v.owner = true) :
    Located here (Pool.cons (Pool.remove queue q e) j e) (Function.update ev e v) known := by
  have hmem : e ∈ Pool.restrict QueueId.isHome queue q := Pool.mem_restrict.mpr ⟨hq, he⟩
  refine h.relabel ?_ (fun i x hx hxe => ?_) (fun i hi => ?_) (fun _ => ?_) (fun hnet => ?_)
  · rw [Pool.restrict_cons hj, Pool.restrict_remove hq]
    exact h.home.move hmem j
  · rcases Pool.mem_cons.mp hx with ⟨-, rfl⟩ | hx
    · exact absurd rfl hxe
    · exact Pool.of_mem_remove hx
  · rcases Pool.mem_cons.mp hi with ⟨rfl, -⟩ | hi
    · exact hallows
    · rcases h.place hq he (Pool.of_mem_remove hi) with rfl | rfl
      · exact absurd rfl ((h.nodup hq).mem_erase_iff.mp (Pool.remove_self (p := queue) ▸ hi)).1
      · rfl
  · refine h.known_of_mem (q := q) ?_ he
    rintro rfl
    cases hq
  · rw [QueueId.isNet_eq_false hj hallows] at hnet
    cases hnet

/-- An event leaves the head of a queue of its PE for another one. -/
theorem moveHead {rest : List (TwEvent T)} (h : Located here queue ev known)
    (hq : q.isHome = true) (he : queue q = e :: rest) (hj : j.isHome = true)
    (hallows : j.allows (here e) v.owner = true) :
    Located here (Pool.cons (Function.update queue q rest) j e) (Function.update ev e v)
      known := by
  rw [Pool.update_tail he]
  exact h.move hq (he ▸ List.mem_cons_self) hj hallows

/-- An event leaves a queue and gets the owner of a buffer in no queue of its PE. -/
theorem drop (h : Located here queue ev known) (q : QueueId) (hknown : known e)
    (hnet : v.owner.isNet = false)
    (hallows : ∀ i, i.allows (here e) (ev e).owner = true → (i = q → q.isHome = false) →
      i.allows (here e) v.owner = true) :
    Located here (Pool.remove queue q e) (Function.update ev e v) known := by
  refine h.relabel ?_ (fun i x hx _ => Pool.of_mem_remove hx) (fun i hi => ?_)
    (fun _ => hknown) (fun hnet' => ?_)
  · by_cases hq : q.isHome = true
    · rw [Pool.restrict_remove hq]
      exact h.home.remove q e
    · rw [Pool.restrict_remove_of_not (Bool.eq_false_iff.mpr hq)]
      exact h.home
  · refine hallows i (h.allows i e (Pool.of_mem_remove hi)) fun hiq => ?_
    by_contra hq
    rw [hiq] at hi
    exact absurd rfl ((h.nodup (Bool.not_eq_false _ ▸ hq)).mem_erase_iff.mp
      (Pool.remove_self (p := queue) ▸ hi)).1
  · rw [hnet] at hnet'
    cases hnet'

/-- An event leaves a queue of its PE for none. -/
theorem take (h : Located here queue ev known) (hq : q.isHome = true) (he : e ∈ queue q)
    (hnet : v.owner.isNet = false) :
    Located here (Pool.remove queue q e) (Function.update ev e v) known := by
  refine h.relabel ?_ (fun i x hx _ => Pool.of_mem_remove hx) (fun i hi => ?_) (fun _ => ?_)
    (fun hnet' => ?_)
  · rw [Pool.restrict_remove hq]
    exact h.home.remove q e
  · rcases h.place hq he (Pool.of_mem_remove hi) with rfl | rfl
    · exact absurd rfl ((h.nodup hq).mem_erase_iff.mp (Pool.remove_self (p := queue) ▸ hi)).1
    · rfl
  · refine h.known_of_mem (q := q) ?_ he
    rintro rfl
    cases hq
  · rw [hnet] at hnet'
    cases hnet'

/-- An event on its way to another PE goes to a queue of the network layer. -/
theorem relay (h : Located here queue ev known)
    (hhome : Pool.restrict QueueId.isHome queue' = Pool.restrict QueueId.isHome queue)
    (hmem : ∀ i x, x ∈ queue' i → x ∈ queue i ∨ i = j ∧ x = e)
    (hj : j = .outq ∨ j = .postedSends ∨ j = .seventQ) (hhere : here e = false)
    (ho : (ev e).owner.isNet = true ∨ (ev e).owner = .peFreeQ)
    (ho' : v.owner.isNet = true) :
    Located here queue' (Function.update ev e v) known := by
  refine h.relabel (hhome ▸ h.home) (fun i x hx hxe => ?_) (fun i hi => ?_) (fun _ => ?_)
    fun _ => hhere
  · exact (hmem i x hx).resolve_right fun hor => hxe hor.2
  · rw [hhere]
    rcases hmem i e hi with hi | ⟨rfl, -⟩
    · have hall := h.allows i e hi
      rw [hhere] at hall
      exact QueueId.allows_net hall ho (.inl ho')
    · rcases hj with rfl | rfl | rfl
      · simp [QueueId.allows, ho']
      · simp [QueueId.allows, ho']
      · simp [QueueId.allows, ho']
  · refine h.owned e fun hun => ?_
    rw [hun] at ho
    rcases ho with ho | ho
    · cases ho
    · cases ho

/-- An event on its way to another PE is freed. -/
theorem dropNet (h : Located here queue ev known) (q : QueueId) (hnet : (ev e).owner.isNet = true)
    (ho : v.owner = .peFreeQ) :
    Located here (Pool.remove queue q e) (Function.update ev e v) known := by
  have hhere := h.away e hnet
  refine h.drop q (h.owned e fun hun => ?_) (by rw [ho]; rfl) fun i hi _ => ?_
  · rw [hun] at hnet
    cases hnet
  · rw [hhere] at hi ⊢
    rw [ho]
    exact QueueId.allows_net hi (.inl hnet) (.inr rfl)

section

omit [TwStime T]

/-- An event is also kept among the cancelled ones. -/
theorem park (h : Located here queue ev known) (e : TwEvent T) :
    Located here (Pool.cons queue .antiMsg e) ev known where
  home := by
    rw [Pool.restrict_cons_of_not rfl]
    exact h.home
  allows q x hx := by
    rcases Pool.mem_cons.mp hx with ⟨rfl, -⟩ | hx
    · rfl
    · exact h.allows q x hx
  owned := h.owned
  hand x hx := by
    rcases Pool.mem_cons.mp hx with ⟨hq, -⟩ | hx
    · cases hq
    · exact h.hand x hx
  away := h.away

/-- The end of a queue of the PE becomes another queue that takes the same events. -/
theorem split {front back : List (TwEvent T)} (h : Located here queue ev known)
    (hq : q.isHome = true) (hj : j.isHome = true) (heq : queue q = front ++ back)
    (hhand : j ≠ .hand)
    (hallows : ∀ e ∈ back, q.allows (here e) (ev e).owner = true →
      j.allows (here e) (ev e).owner = true) :
    Located here (Function.update (Function.update queue q front) j back) ev known where
  home := by
    rw [Pool.restrict_update hj, Pool.restrict_update hq]
    refine h.home.split ?_ j
    rw [Pool.restrict_of hq, heq]
  allows i x hx := by
    rcases Pool.mem_update.mp hx with ⟨hi, hback⟩ | ⟨-, hx⟩
    · rw [hi]
      exact hallows x hback (h.allows q x (heq ▸ List.mem_append_right _ hback))
    · rcases Pool.mem_update.mp hx with ⟨hi, hfront⟩ | ⟨-, hx⟩
      · rw [hi]
        exact h.allows q x (heq ▸ List.mem_append_left _ hfront)
      · exact h.allows i x hx
  owned := h.owned
  hand x hx := by
    rcases Pool.mem_update.mp hx with ⟨hi, -⟩ | ⟨-, hx⟩
    · exact absurd hi.symm hhand
    · rcases Pool.mem_update.mp hx with ⟨hi, hfront⟩ | ⟨-, hx⟩
      · refine h.hand x ?_
        rw [hi, heq]
        exact List.mem_append_left _ hfront
      · exact h.hand x hx
  away := h.away

theorem not_mem_restrict (h : Located here queue ev known) (hnew : ¬ known e) :
    Pool.Loose (Pool.restrict QueueId.isHome queue) e := by
  intro q hq
  obtain ⟨hhome, he⟩ := Pool.mem_restrict.mp hq
  refine hnew (h.known_of_mem ?_ he)
  rintro rfl
  cases hhome

end

/-- An event that no queue holds is linked. -/
theorem link (h : Located here queue ev known) (hknown : known e)
    (hnot : ∀ q ≠ .antiMsg, e ∉ queue q)
    (hhome : Pool.Exclusive (Pool.restrict QueueId.isHome queue'))
    (hmem : ∀ i x, x ∈ queue' i → x ∈ queue i ∨ i = j ∧ x = e)
    (hallows : j.allows (here e) v.owner = true)
    (haway : v.owner.isNet = true → here e = false) :
    Located here queue' (Function.update ev e v) known := by
  refine h.relabel hhome (fun i x hx hxe => ?_) (fun i hi => ?_) (fun _ => hknown) haway
  · exact (hmem i x hx).resolve_right fun hor => hxe hor.2
  · rcases hmem i e hi with hi | ⟨rfl, -⟩
    · by_cases hanti : i = .antiMsg
      · rw [hanti]
        rfl
      · exact absurd hi (hnot i hanti)
    · exact hallows

/-- A new event is linked. -/
theorem add (h : Located here queue ev known) (hnew : ¬ known e)
    (hknown : ∀ x, known x → known' x) (hknown' : known' e)
    (hhome : Pool.Exclusive (Pool.restrict QueueId.isHome queue'))
    (hmem : ∀ i x, x ∈ queue' i → x ∈ queue i ∨ i = j ∧ x = e)
    (hallows : j.allows (here e) v.owner = true)
    (haway : v.owner.isNet = true → here e = false) :
    Located here queue' (Function.update ev e v) known' :=
  (h.mono hknown).link hknown' (fun _ hq he => hnew (h.known_of_mem hq he)) hhome hmem hallows
    haway

end Located

end Pe

end Ross
