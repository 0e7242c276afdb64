import Ross.Proofs.GvtTurns
import Ross.Proofs.Sent

/-!
# Safety of GVT

In the optimistic schedulers no event at any PE that is still to be processed, cancelled, sent or
received is below the GVT of any PE, and no event is committed that is not.
-/

namespace Ross

open Transition

variable {T S M R : Type} [TwStime T]

/-! ## What a PE contributes -/

namespace Pe

variable {m : SimModel T S M R} {s s' : Pe T S M R} {sig : TwEventSig T}

theorem le_twPqMinimumSig_iff (hmax : sig ≤ maxSig) :
    sig ≤ s.twPqMinimumSig ↔ ∀ e ∈ s.queue .pq, sig ≤ e.sig := by
  unfold twPqMinimumSig
  cases hl : pqLeast (s.queue .pq) with
  | none => simp [hmax, pqLeast_eq_none.mp hl]
  | some e =>
      obtain ⟨hmem, hle⟩ := pqLeast_some hl
      exact ⟨fun h x hx => h.trans (hle x hx), fun h => h e hmem⟩

/-- The tests of `tw_gvt_step2` take the least signature. -/
theorem ite_compare_eq_min (a b : TwEventSig T) :
    (if 0 < twEventSigComparePtr a b then b else a) = min a b := by
  split
  next hlt => exact (min_eq_right (twEventSigComparePtr_pos.mp hlt).le).symm
  next hle =>
    refine (min_eq_left (not_lt.mp fun hlt => hle ?_)).symm
    exact twEventSigComparePtr_pos.mpr hlt

theorem le_twNetMinimumSig_iff (hmax : sig ≤ maxSig) :
    sig ≤ s.twNetMinimumSig ↔
      (∀ e ∈ s.queue .outq, sig ≤ e.sig) ∧ ∀ e ∈ s.queue .postedSends, sig ≤ e.sig := by
  have hfold : ∀ (l : List (TwEvent T)) (x : TwEventSig T),
      sig ≤ l.foldl (fun x e => if 0 < twEventSigComparePtr x e.sig then e.sig else x) x ↔
        sig ≤ x ∧ ∀ e ∈ l, sig ≤ e.sig := by
    intro l
    induction l with
    | nil => simp
    | cons e l ih =>
        intro x
        rw [List.foldl_cons, ih, ite_compare_eq_min]
        simp [and_assoc]
  unfold twNetMinimumSig
  rw [hfold]
  simp [hmax, or_imp, forall_and]

/-- What the PE contributes to GVT is the least of four signatures. -/
theorem le_lvtSig_iff :
    sig ≤ s.lvtSig m ↔ sig ≤ s.transMsgSig ∧ sig ≤ s.twPqMinimumSig ∧ sig ≤ s.twNetMinimumSig ∧
      (m.gvtHook = true → s.trigger.status ≠ .disabled → sig ≤ s.trigger.sigAt) := by
  have hfour : ∀ P : Prop, (sig ≤ s.transMsgSig ∧ sig ≤ s.twPqMinimumSig ∧
      sig ≤ s.twNetMinimumSig ∧ P) ↔
      sig ≤ min (min s.transMsgSig s.twPqMinimumSig) s.twNetMinimumSig ∧ P := by
    simp [and_assoc]
  unfold lvtSig
  simp only [ite_compare_eq_min]
  rw [hfour]
  split
  next hc =>
    have hlt := twEventSigComparePtr_pos.mp hc.2.2
    exact ⟨fun h => ⟨h.trans hlt.le, fun _ _ => h⟩, fun h => h.2 hc.1 hc.2.1⟩
  next hc =>
    refine ⟨fun h => ⟨h, fun hg hst => h.trans (not_lt.mp fun hlt => ?_)⟩, fun h => h.1⟩
    exact hc ⟨hg, hst, twEventSigComparePtr_pos.mpr hlt⟩

end Pe

theorem le_findMinSig_iff {sig : TwEventSig T} {sigs : List (TwEventSig T)}
    (hmax : sig ≤ maxSig) : sig ≤ findMinSig sigs ↔ ∀ x ∈ sigs, sig ≤ x := by
  cases sigs with
  | nil => simp [findMinSig, hmax]
  | cons a sigs =>
      obtain ⟨hmem, hle⟩ := findMinSig_spec (List.cons_ne_nil a sigs)
      exact ⟨fun h x hx => h.trans (hle x hx), fun h => h _ hmem⟩

/-! ## The turn of GVT -/

namespace Course

open Pe

variable {m : SimModel T S M R} {s s' : Pe T S M R} {low : TwEventSig T}

theorem le_lvtSig (h : Course m low s) (hfl : s.stock.Floor m low) (hmax : low ≤ maxSig) :
    low ≤ s.lvtSig m := by
  refine le_lvtSig_iff.mpr ⟨hfl.trans.1, ?_, ?_, fun hg hst => (h.trigger hg hst).1⟩
  · exact (le_twPqMinimumSig_iff hmax).mpr fun e he => (hfl.queue .pq e he).1 rfl
  · exact (le_twNetMinimumSig_iff hmax).mpr ⟨fun e he => (hfl.queue .outq e he).1 rfl,
      fun e he => (hfl.queue .postedSends e he).1 rfl⟩

/-- Past the end of time nothing is left to bound GVT. -/
theorem max_le_lvtSig (h : Course m low s) (hfl : s.stock.Floor m low) (ht : s.InTime m)
    (hend : m.tsEnd ≤ low.recvTs) : maxSig ≤ s.lvtSig m := by
  have empty : ∀ q : QueueId, q.isPending = true → ∀ e ∈ s.queue q, maxSig ≤ e.sig := by
    intro q hp e he
    have hle := TwEventSig.recvTs_le_of_le ((hfl.queue q e he).1 hp)
    exact absurd (hend.trans hle) (not_le.mpr (ht.queue q e he))
  refine le_lvtSig_iff.mpr ⟨(hfl.trans.eq_max hend).ge, ?_, ?_, fun hg hst => ?_⟩
  · exact (le_twPqMinimumSig_iff le_rfl).mpr (empty .pq rfl)
  · exact (le_twNetMinimumSig_iff le_rfl).mpr ⟨empty .outq rfl, empty .postedSends rfl⟩
  · exact ((h.trigger hg hst).eq_max hend).ge

/-- The floor of a PE that waits for the reduction rises to what the PE contributes. -/
theorem raise {gvt : TwEventSig T} (h : Course m low s) (hfl : s.stock.Floor m low)
    (hk : KpOrder m s) (hat : s.At (.reduce .lvt)) (hle : low ≤ min gvt maxSig)
    (hlvt : min gvt maxSig ≤ s.lvtSig m) (hgvt : s.gvtSig ≤ min gvt maxSig) :
    s.stock.Floor m (min gvt maxSig) ∧
      Course m (min gvt maxSig) { s with phase := .gvtStore gvt } := by
  obtain ⟨⟨-, hevents, hcancels⟩, had⟩ := h.fits_at hat
  obtain ⟨htrans, hpq, hnet, htrigger⟩ := le_lvtSig_iff.mp hlvt
  have hpq := (le_twPqMinimumSig_iff (min_le_right gvt maxSig)).mp hpq
  have hnet := (le_twNetMinimumSig_iff (min_le_right gvt maxSig)).mp hnet
  have hhand : s.queue .hand = [] := hk.empty hat.2.1 fun _ _ _ _ hp => by
    cases hat.2.2.symm.trans hp
  constructor
  · refine hfl.raise hle (fun q hp e he => ?_) ⟨fun e he => ?_, fun e he => ?_⟩ hat.2.1 htrans
    · have he : e ∈ s.queue q := he
      cases q with
      | pq => exact hpq e he
      | eventQ => exact htrans.trans (hevents .eventQ e he (.inl rfl))
      | evList => exact htrans.trans (hevents .evList e he (.inr rfl))
      | outq => exact hnet.1 e he
      | postedSends => exact hnet.2 e he
      | hand =>
          rw [hhand] at he
          cases he
      | _ => cases hp
    · exact htrans.trans (hcancels.1 e he)
    · exact htrans.trans (hcancels.2 e he)
  · refine ⟨⟨⟨rfl, hgvt⟩, had⟩, fun r hr => absurd (hat.2.1.symm.trans hr) (by simp),
      fun hn => absurd rfl (hn gvt), fun hg hst => ?_⟩
    exact ⟨htrigger hg hst, (h.trigger hg hst).2⟩

end Course

namespace Pe

variable {m : SimModel T S M R} {s s' : Pe T S M R}

/-- A PE while GVT is `low`. -/
structure AtGvt (m : SimModel T S M R) (low : TwEventSig T) (s : Pe T S M R) : Prop where
  floor : s.stock.Floor m low
  course : Course m low s
  order : KpOrder m s
  kept : s.stock.Kept m

/-- What is sent was in `outq`. -/
theorem Deed.sends {i : Input T M} (h : Deed m s s' i) :
    ∃ ws, s'.wire = s.wire ++ ws ∧ ∀ x ∈ ws, x.2.ev ∈ s.queue .outq := by
  have same : ∀ {t : Stock T M}, s'.stock = t → t.wire = s.wire →
      ∃ ws, s'.wire = s.wire ++ ws ∧ ∀ x ∈ ws, x.2.ev ∈ s.queue .outq := by
    rintro _ rfl hw
    exact ⟨[], hw.trans (List.append_nil _).symm, by simp⟩
  cases h with
  | @isend e _ he hst =>
      refine ⟨_, congrArg Stock.wire hst, fun x hx => ?_⟩
      rw [List.mem_singleton.mp hx]
      exact List.mem_of_getLast? he
  | commit _ _ _ hst _ => exact same hst rfl
  | cancelProcessed _ _ _ _ hst => exact same hst rfl
  | none hst | store _ _ hst | raise _ _ hst | recvCancel _ _ _ hst | recvEvent _ _ _ _ hst
  | recalled _ _ _ hst | keep _ _ _ _ hst | sendFree _ _ hst | create _ _ hst | createAbort hst
  | sendAbort _ hst | send _ _ _ hst | dropOutq _ _ _ hst | markAsend _ _ _ hst
  | antiMessage _ _ _ hst | dropPq _ _ _ _ hst | cancelLocal _ _ _ _ hst | requeue _ _ _ hst
  | undoneFree _ _ _ hst | undo _ _ hst | abort _ _ _ hst | dropAnti _ _ _ hst | enqueue _ _ hst
  | loadEvents _ _ hst | cancelFree _ _ _ _ hst | loadCancel _ _ hst | start _ _ hst
  | release _ _ hst | process _ _ _ _ hst | freeChild _ _ hst | cut _ _ hst | init _ hst =>
      exact same hst rfl

theorem step_reduce {r : Reduction} (hat : s.At (.reduce r)) (o : Outcome T) :
    s.step m (.outcome o) = .ok (s.reduceDone r o) := by
  obtain ⟨hn, hr, hp⟩ := hat
  unfold step
  rw [hn, hr]
  dsimp only
  rw [hp]
  rfl

theorem kpOrder_reduce {r : Reduction} (h : KpOrder m s) (hat : s.At (.reduce r))
    (o : Outcome T) : KpOrder m (s.reduceDone r o) := by
  refine kpOrder_step h ?_ (step_reduce hat o)
  rintro ⟨-, -, -, kind, left, lp, cev, -, hp, -⟩
  cases hat.2.2.symm.trans hp

/-- A PE that receives takes no step that needs care. -/
theorem Careful.recv {src : Nat} {w : WireMsg T M} (hs : s.step m (.recv src w) = .ok s') :
    s.Careful m (.recv src w) := by
  have hnet : s.net ≠ .off := by
    cases step_turn hs with
    | recv hn _ _ => simp [hn]
    | hook _ hs => cases hs
  refine ⟨fun hu => hnet hu.1, fun lp d o p msg hsp => ?_, fun sig hsig => by cases hsig⟩
  obtain ⟨ops, ⟨kind, left, hat⟩ | hat⟩ := hsp
  · exact absurd hat.1 hnet
  · exact absurd hat.1 hnet

end Pe

namespace System

variable {m : SimModel T S M R} {s s' : System T S M R} {low : TwEventSig T}

omit [TwStime T] in
/-- What is under way after a step of a PE was under way before, or is sent in the step. -/
theorem inFlight_update {i : Nat} {p : Pe T S M R} {ws : List (Nat × WireMsg T M)}
    (hwire : p.wire = (s i).wire ++ ws) (harr : ∃ ys, p.arrived = (s i).arrived ++ ys)
    {src j : Nat} {w : WireMsg T M} (hw : w ∈ System.inFlight (Function.update s i p) src j) :
    w ∈ s.inFlight src j ∨ src = i ∧ ∃ x ∈ ws, x.2 = w := by
  obtain ⟨more, hsent, hmore⟩ : ∃ more,
      System.sentTo (Function.update s i p) src j = s.sentTo src j ++ more ∧
        ∀ w ∈ more, src = i ∧ ∃ x ∈ ws, x.2 = w := by
    unfold sentTo
    by_cases hsrc : src = i
    · refine ⟨(ws.filter fun x => x.1 = j).map (·.2), ?_, fun w hw => ⟨hsrc, ?_⟩⟩
      · rw [hsrc, Function.update_self, hwire, List.filter_append, List.map_append]
      · obtain ⟨x, hx, heq⟩ := List.mem_map.mp hw
        exact ⟨x, (List.mem_filter.mp hx).1, heq⟩
    · exact ⟨[], by rw [Function.update_of_ne hsrc, List.append_nil], by simp⟩
  have hlen : (s.arrivedFrom src j).length ≤
      (System.arrivedFrom (Function.update s i p) src j).length := by
    unfold arrivedFrom
    by_cases hj : j = i
    · obtain ⟨ys, hys⟩ := harr
      rw [hj, Function.update_self, hys, List.filter_append, List.map_append, List.length_append]
      exact Nat.le_add_right _ _
    · rw [Function.update_of_ne hj]
  unfold inFlight at hw ⊢
  rw [hsent, List.drop_append] at hw
  rcases List.mem_append.mp hw with hw | hw
  · exact .inl (List.drop_subset_drop_left _ hlen hw)
  · exact .inr (hmore w (List.mem_of_mem_drop hw))

/-- While the PEs agree that GVT is `low`. -/
structure AtGvt (m : SimModel T S M R) (low : TwEventSig T) (s : System T S M R) : Prop where
  max : low ≤ maxSig
  pe : ∀ i < m.npe, (s i).AtGvt m low
  flight : ∀ i < m.npe, ∀ src < m.npe, ∀ w ∈ s.inFlight src i, low ≤ w.ev.sig

/-- What is asked of a run: the kernel's numbers of events do not wrap around, and the steps of
the PEs are careful. -/
structure Careful (m : SimModel T S M R) (s : System T S M R) (l : SystemInput T M) : Prop where
  unwrapped : Unwrapped m s
  pe : ∀ i x, l = .pe i x → (s i).Careful m x

namespace AtGvt

/-- What is received is over the floor, and an anti-message finds the event that it cancels. -/
theorem received (h : AtGvt m low s) (hr : Reached m s) (hwrap : Unwrapped m s) {i src : Nat}
    (hi : i < m.npe) (hsrc : src < m.npe) {w : WireMsg T M}
    (hw : (s.inFlight src i).head? = some w) :
    low ≤ w.ev.sig ∧ w.ev.InTime m ∧
      ∀ c, (s i).hashT.find? (sameKey m w.ev) = some c → c.sig = w.ev.sig := by
  obtain ⟨x, hx, rfl⟩ := inFlight_mem hw
  refine ⟨h.flight i hi src hsrc _ (List.mem_of_mem_head? hw), (hr.inTime src).wire x hx,
    fun c hc => ?_⟩
  obtain ⟨u, rfl⟩ := hr.index_entry hwrap hi hsrc ((hr.sent src).1.wire x hx).1
    (List.mem_of_find?_eq_some hc) (List.find?_some hc)
  rfl

/-- A step of one PE. -/
theorem own (h : AtGvt m low s) (hr : Reached m s) (hwrap : Unwrapped m s)
    (hend : (0 : T) < m.tsEnd) {i : Nat} {x : Input T M} {p : Pe T S M R} (hi : i < m.npe)
    (ho : (∀ o, x ≠ .outcome o) ∧ ∀ c, x ≠ .call c)
    (hrecv : ∀ src w, x = .recv src w → src < m.npe ∧ (s.inFlight src i).head? = some w)
    (hcare : (s i).Careful m x) (hp : (s i).step m x = .ok p) :
    AtGvt m low (Function.update s i p) := by
  have htakes : ∀ src w, x = .recv src w → low ≤ w.ev.sig ∧ w.ev.InTime m ∧
      ∀ c, (s i).hashT.find? (sameKey m w.ev) = some c → c.sig = w.ev.sig := fun src w hx =>
    h.received hr hwrap hi (hrecv src w hx).1 (hrecv src w hx).2
  obtain ⟨hfloor, hcourse, horder, hkept⟩ := h.pe i hi
  have hdeed := Pe.step_deed ho hp
  have hpe : p.AtGvt m low :=
    { floor := hdeed.floor hfloor h.max (hr.inTime i)
        (hcourse.takesAbove hfloor horder (hr.inTime i) htakes)
      course := hcourse.step hfloor h.max hend horder (hr.inTime i) hkept ho hcare
        (fun src w hx => (htakes src w hx).2.2) (hr.whiteBalance.parked i) hp
      order := Pe.kpOrder_step horder hcare.order hp
      kept := hdeed.kept hkept }
  refine ⟨h.max, fun j hj => ?_, fun j hj src hsrc w hw => ?_⟩
  · by_cases hji : j = i
    · rw [hji, Function.update_self]
      exact hpe
    · rw [Function.update_of_ne hji]
      exact h.pe j hj
  · obtain ⟨ws, hwire, hws⟩ := hdeed.sends
    have harr : ∃ ys, p.arrived = (s i).arrived ++ ys := by
      rcases hdeed.channels.2 with harr | ⟨_, _, -, harr⟩
      · exact ⟨[], harr.trans (List.append_nil _).symm⟩
      · exact ⟨_, harr⟩
    rcases inFlight_update hwire harr hw with hw | ⟨-, y, hy, rfl⟩
    · exact h.flight j hj src hsrc w hw
    · exact (hfloor.queue .outq _ (hws y hy)).1 rfl

omit [TwStime T] in
/-- A reduction leaves everything under way as it is. -/
theorem inFlight_reduce {r : Reduction} (o : Outcome T) (src j : Nat) :
    System.inFlight (fun i => if i < m.npe then (s i).reduceDone r o else s i) src j =
      s.inFlight src j := by
  have hsame : ∀ k, (if k < m.npe then (s k).reduceDone r o else s k).wire = (s k).wire ∧
      (if k < m.npe then (s k).reduceDone r o else s k).arrived = (s k).arrived := by
    intro k
    split
    · obtain ⟨p, hp⟩ := reduceDone_frame (s k) r o
      rw [hp]
      exact ⟨rfl, rfl⟩
    · exact ⟨rfl, rfl⟩
  unfold inFlight sentTo arrivedFrom
  rw [(hsame src).1, (hsame j).2]

/-- A reduction other than that of GVT. -/
theorem reduced (h : AtGvt m low s) {r : Reduction} (hr : r ≠ .lvt)
    (hat : ∀ i < m.npe, (s i).At (.reduce r)) :
    AtGvt m low fun i => if i < m.npe then (s i).reduceDone r (s.outcome m r) else s i := by
  refine ⟨h.max, fun i hi => ?_, fun i hi src hsrc w hw => ?_⟩
  · rw [if_pos hi]
    obtain ⟨hfloor, hcourse, horder, hkept⟩ := h.pe i hi
    obtain ⟨p, hp⟩ := reduceDone_frame (s i) r (s.outcome m r)
    have hstock : ((s i).reduceDone r (s.outcome m r)).stock = (s i).stock := by
      rw [hp]
      rfl
    refine ⟨hstock ▸ hfloor, ?_, Pe.kpOrder_reduce horder (hat i hi) _, hstock ▸ hkept⟩
    have hfits := hcourse.fits_at (hat i hi)
    have hnone := (hat i hi).2.1
    cases r with
    | white =>
        obtain ⟨hflush, had⟩ := hfits
        refine hcourse.goto (hat i hi) nofun ?_ hnone rfl rfl
        show Phase.Fits m low _ (if _ = _ then _ else _)
        split
        · exact ⟨hflush, had⟩
        · exact ⟨hflush, had⟩
    | lvt => exact absurd rfl hr
    | hookAll => exact hcourse.goto (hat i hi) nofun hfits hnone rfl rfl
    | hookAny => exact hcourse.goto (hat i hi) nofun hfits hnone rfl rfl
    | cleanupCancel => exact hcourse.goto (hat i hi) nofun hfits hnone rfl rfl
    | cleanupEvent => exact hcourse.goto (hat i hi) nofun hfits hnone rfl rfl
  · rw [inFlight_reduce] at hw
    exact h.flight i hi src hsrc w hw

/-- The reduction of GVT: nothing is under way, and the floor rises to the new GVT. -/
theorem raise (h : AtGvt m low s) (hr : Reached m s) (hat : ∀ i < m.npe, (s i).At (.reduce .lvt)) :
    ∃ low', low ≤ low' ∧
      AtGvt m low' fun i =>
        if i < m.npe then (s i).reduceDone .lvt (s.outcome m .lvt) else s i := by
  let gvt := findMinSig ((List.range m.npe).map fun i => (s i).lvtSig m)
  have hlvt : ∀ i < m.npe, min gvt maxSig ≤ (s i).lvtSig m := fun i hi =>
    (le_findMinSig_iff (min_le_right gvt maxSig)).mp (min_le_left gvt maxSig) _
      (List.mem_map.mpr ⟨i, List.mem_range.mpr hi, rfl⟩)
  have hmem : ∀ {sig : TwEventSig T}, sig ≤ maxSig → (∀ i < m.npe, sig ≤ (s i).lvtSig m) →
      sig ≤ min gvt maxSig := by
    intro sig hmax hall
    refine le_min ((le_findMinSig_iff hmax).mpr fun x hx => ?_) hmax
    obtain ⟨i, hi, rfl⟩ := List.mem_map.mp hx
    exact hall i (List.mem_range.mp hi)
  have hle : low ≤ min gvt maxSig := hmem h.max fun i hi =>
    (h.pe i hi).course.le_lvtSig (h.pe i hi).floor h.max
  have hgvt : ∀ i < m.npe, (s i).gvtSig ≤ min gvt maxSig := by
    intro i hi
    rcases (h.pe i hi).course.gvt_at (hat i hi) nofun with hg | ⟨-, hend, hg⟩
    · exact hg.trans_le hle
    · exact hg.trans (hmem le_rfl fun j hj =>
        (h.pe j hj).course.max_le_lvtSig (h.pe j hj).floor (hr.inTime j) hend)
  refine ⟨min gvt maxSig, hle, min_le_right gvt maxSig, fun i hi => ?_,
    fun i hi src hsrc w hw => ?_⟩
  · rw [if_pos hi]
    obtain ⟨hfloor, hcourse, horder, hkept⟩ := h.pe i hi
    obtain ⟨hfloor', hcourse'⟩ :=
      hcourse.raise hfloor horder (hat i hi) hle (hlvt i hi) (hgvt i hi)
    exact ⟨hfloor', hcourse', Pe.kpOrder_reduce horder (hat i hi) (.gvt gvt), hkept⟩
  · rw [inFlight_reduce] at hw
    obtain ⟨-, hnone⟩ := hr.whiteBalance.nothing_under_way hr.fifo ⟨i, hi, (hat i hi).2.2⟩
    rw [hnone i hi src hsrc] at hw
    cases hw

theorem step (h : AtGvt m low s) (hr : Reached m s) (hend : (0 : T) < m.tsEnd)
    {l : SystemInput T M} (hcare : Careful m s l) (hs : s.step m l = .ok s') :
    ∃ low', low ≤ low' ∧ AtGvt m low' s' := by
  cases l with
  | pe i x =>
      obtain ⟨hi, hlocal, p, hp, rfl⟩ := pe_ok hs
      refine ⟨low, le_rfl, h.own hr hcare.unwrapped hend hi ⟨?_, ?_⟩ ?_ (hcare.pe i x rfl) hp⟩
      · rintro o rfl
        cases hlocal
      · rintro c rfl
        cases hlocal
      · rintro src w rfl
        cases hlocal
  | deliver i src =>
      obtain ⟨hi, hsrc, w, p, hw, hp, rfl⟩ := deliver_ok hs
      refine ⟨low, le_rfl, h.own hr hcare.unwrapped hend hi ⟨by simp, by simp⟩ ?_
        (Pe.Careful.recv hp) hp⟩
      rintro src' w' heq
      cases heq
      exact ⟨hsrc, hw⟩
  | reduce r =>
      obtain ⟨hat, rfl⟩ := reduce_ok hs
      by_cases hlvt : r = .lvt
      · subst hlvt
        exact h.raise hr hat
      · exact ⟨low, le_rfl, h.reduced hlvt hat⟩

end AtGvt

/-! ## Runs -/

/-- What the configuration of a run promises. -/
structure GvtConfig (m : SimModel T S M R) : Prop where
  synch : m.synch = .optimistic ∨ m.synch = .optimisticRealtime
  tsEnd : (0 : T) < m.tsEnd
  max : (zeroSig : TwEventSig T) ≤ maxSig
  trigger : m.gvtHook = true → m.trigger0.status ≠ .disabled →
    TwEventSig.Bounds m zeroSig m.trigger0.sigAt

/-- The states of all careful runs. -/
def CarefulRun (m : SimModel T S M R) : System T S M R → Prop :=
  ReachableVia (· = start m) (fun a l b => a.step m l = .ok b) (Careful m)

/-- An event of the signature `sig` is to be processed, cancelled or sent at PE `j`, or is on its
way to it. -/
inductive Awaits (m : SimModel T S M R) (s : System T S M R) (j : Nat) : TwEventSig T → Prop
  | queued {q : QueueId} {e : TwEvent T} :
      q.isPending = true → e ∈ (s j).queue q → Awaits m s j e.sig
  | cancelled {e : TwEvent T} : e ∈ (s j).cancelQ ∨ e ∈ (s j).cancelList → Awaits m s j e.sig
  | underWay {src : Nat} {w : WireMsg T M} :
      src < m.npe → w ∈ s.inFlight src j → Awaits m s j w.ev.sig

omit [TwStime T] in
theorem program_admitted (h : m.synch = .optimistic ∨ m.synch = .optimisticRealtime) (id : Nat) :
    Drain.start.Admits (Pe.program m id) := by
  have hcall : Drain.start.Admits [Pe.schedulerCall m] := by
    unfold Pe.schedulerCall
    rcases h with h | h
    · rw [h]
      exact ⟨.batch, rfl, trivial⟩
    · rw [h]
      exact ⟨.batch, rfl, trivial⟩
  have keep : ∀ (f : Nat → Call T), (∀ lp, Drain.next .start (f lp) = some .start) →
      ∀ c ∈ (m.lps id).map f, Drain.next .start c = some .start := by
    intro f hf c hc
    obtain ⟨lp, -, rfl⟩ := List.mem_map.mp hc
    exact hf lp
  unfold Pe.program
  rw [List.append_assoc, List.append_assoc]
  exact StagedProgram.Admits.append_of_keep (keep .initLp fun _ => rfl)
    (StagedProgram.Admits.append_of_keep (keep .preRunLp fun _ => rfl)
      (Drain.admits_readCall m hcall))

theorem AtGvt.start (hc : GvtConfig m) : AtGvt m zeroSig (System.start m) where
  max := hc.max
  pe i _ :=
    { floor :=
        { queue := by simp [System.start, Pe.start, Pe.stock]
          cancelQ := by simp [System.start, Pe.start, Pe.stock]
          cancelList := by simp [System.start, Pe.start, Pe.stock]
          children := by simp [System.start, Pe.start, Pe.stock]
          rollback := by simp [System.start, Pe.start, Pe.stock]
          trans := .max hc.max
          commits := by simp [System.start, Pe.start, Pe.stock] }
      course :=
        { fits := ⟨.start, ⟨rfl, fun _ => rfl⟩, program_admitted hc.synch i⟩
          rolls := by simp [System.start, Pe.start]
          gvt := fun _ => .inl rfl
          trigger := hc.trigger }
      order := Pe.kpOrder_start i _
      kept := by simp [System.start, Pe.start, Pe.stock, Stock.Kept] }
  flight := by simp [System.start, Pe.start, inFlight, sentTo]

theorem CarefulRun.atGvt (hc : GvtConfig m) (h : CarefulRun m s) :
    Reached m s ∧ ∃ low, AtGvt m low s := by
  refine ReachableVia.invariant (P := fun s => Reached m s ∧ ∃ low, AtGvt m low s) ?_ ?_ h
  · rintro s rfl
    exact ⟨.start rfl, zeroSig, .start hc⟩
  · rintro s l s' ⟨hr, low, hlow⟩ hcare hs
    obtain ⟨low', -, hlow'⟩ := hlow.step hr hc.tsEnd hcare hs
    exact ⟨.next hr trivial hs, low', hlow'⟩

/-- What is awaited is over the floor, and before the end of time. -/
theorem AtGvt.le_awaited (h : AtGvt m low s) (hr : Reached m s) {j : Nat} (hj : j < m.npe)
    {sig : TwEventSig T} (ha : s.Awaits m j sig) : low ≤ sig ∧ sig.recvTs < m.tsEnd := by
  obtain ⟨hfloor, -⟩ := h.pe j hj
  cases ha with
  | @queued q e hp he => exact ⟨(hfloor.queue q e he).1 hp, (hr.inTime j).queue q e he⟩
  | cancelled he =>
      rcases he with he | he
      · exact hfloor.cancelQ _ he
      · exact hfloor.cancelList _ he
  | @underWay src w hsrc hw =>
      have hmem : w ∈ s.sentTo src j := List.mem_of_mem_drop hw
      obtain ⟨x, hx, rfl⟩ := List.mem_map.mp hmem
      exact ⟨h.flight j hj src hsrc _ hw, (hr.inTime src).wire x (List.mem_filter.mp hx).1⟩

/-- GVT is not above what is awaited. -/
theorem AtGvt.gvtSig_le (h : AtGvt m low s) (hr : Reached m s) {i j : Nat} (hi : i < m.npe)
    (hj : j < m.npe) {sig : TwEventSig T} (ha : s.Awaits m j sig) : (s i).gvtSig ≤ sig := by
  obtain ⟨hlow, hend⟩ := h.le_awaited hr hj ha
  by_cases hstore : ∃ gvt, (s i).phase = .gvtStore gvt
  · obtain ⟨gvt, hg⟩ := hstore
    have hfits := (h.pe i hi).course.fits
    rw [hg] at hfits
    exact hfits.1.2.trans hlow
  · rcases (h.pe i hi).course.gvt fun gvt hg => hstore ⟨gvt, hg⟩ with hg | ⟨-, hpast, -⟩
    · exact hg.trans_le hlow
    · exact absurd (hpast.trans (TwEventSig.recvTs_le_of_le hlow)) (not_le.mpr hend)

end System

/-! ## Errors -/

namespace Pe

variable {m : SimModel T S M R} {s s' : Pe T S M R}

theorem recvFinish_not_straggler {src : Nat} {w : WireMsg T M} (h : s.gvtSig ≤ w.ev.sig) :
    s.recvFinish m src w ≠ .error .receivedStraggler := by
  intro hs
  unfold recvFinish at hs
  dsimp only at hs
  split at hs
  · cases hs
  split at hs
  next hlt => exact absurd (twEventSigComparePtr_neg.mp hlt) (not_lt.mpr h)
  next hle =>
    split at hs
    · unfold recvCancel at hs
      split at hs
      · cases hs
      · cases hs
    · unfold recvPositive at hs
      dsimp only at hs
      split at hs
      · cases hs
      · split at hs
        · cases hs
        · cases hs

theorem recv_not_straggler {src : Nat} {w : WireMsg T M} (h : s.gvtSig ≤ w.ev.sig) :
    s.step m (.recv src w) ≠ .error .receivedStraggler := by
  intro hs
  unfold step at hs
  cases hn : s.net with
  | off =>
      rw [hn] at hs
      cases hr : s.rollback with
      | none =>
          rw [hr] at hs
          dsimp only at hs
          generalize s.phase = p at hs
          cases p <;> cases hs
      | some r =>
          rw [hr] at hs
          cases hs
  | testRecvs changed =>
      rw [hn] at hs
      dsimp only [netStep] at hs
      split at hs
      · exact recvFinish_not_straggler (s := { s with net := .testRecvs true }) h hs
      · cases hs
  | _ =>
      rw [hn] at hs
      cases hs

theorem gvtStore_not_decreased {gvt : TwEventSig T} (h : s.gvtSig ≤ min gvt maxSig) :
    s.gvtStore m gvt ≠ .error .gvtDecreased := by
  intro hs
  obtain ⟨n, hclip⟩ : ∃ n, s.gvtClip gvt = (min gvt maxSig, { s with gvtNoChange := n }) := by
    unfold gvtClip
    split
    next hlt => exact ⟨0, by rw [min_eq_left (twEventSigComparePtr_neg.mp hlt).le]⟩
    next hle =>
      refine ⟨s.gvtNoChange + 1, ?_⟩
      rw [min_eq_right (not_lt.mp fun hlt => hle (twEventSigComparePtr_neg.mpr hlt))]
  unfold gvtStore at hs
  dsimp only at hs
  rw [hclip] at hs
  dsimp only at hs
  split at hs
  · cases hs
  split at hs
  next hlt => exact absurd (twEventSigComparePtr_pos.mp hlt) (not_lt.mpr h)
  · cases hs

end Pe

/-- GVT does not go back, not even where the hook puts it to its trigger. -/
theorem Course.gvtSig_mono {m : SimModel T S M R} {s s' : Pe T S M R} {low : TwEventSig T}
    {i : Input T M} (h : Course m low s) (hmax : low ≤ maxSig) (hd : Pe.Deed m s s' i) :
    s.gvtSig ≤ s'.gvtSig := by
  have same : ∀ {t : Stock T M}, s'.stock = t → t.gvtSig = s.gvtSig → s.gvtSig ≤ s'.gvtSig := by
    rintro _ rfl hg
    exact hg.ge
  -- Past the end of time the trigger is at the largest signature.
  have past : ∀ {p : Phase T M}, s.At p → (∀ gvt, p ≠ .gvtStore gvt) →
      m.tsEnd ≤ s.gvtSig.recvTs → s.gvtSig ≤ maxSig ∧ m.tsEnd ≤ low.recvTs := by
    intro p hat hp hend
    have hstands := h.gvt_at hat hp
    refine ⟨?_, hstands.end_le hend⟩
    rcases hstands with hg | ⟨-, -, hg⟩
    · exact hg.trans_le hmax
    · exact hg
  cases hd with
  | store _ hle hst =>
      have hg : s'.gvtSig = _ := congrArg Stock.gvtSig hst
      exact hle.trans hg.ge
  | @raise sig _ hend hsig hst =>
      have hg : s'.gvtSig = sig := congrArg Stock.gvtSig hst
      rw [hg]
      rcases hsig with ⟨rfl, hat | ⟨hat, hevery, hhook⟩⟩ | ⟨rfl, hat⟩
      · obtain ⟨hle, hlow⟩ := past hat (by simp) hend
        obtain ⟨⟨hhook, htime⟩, -⟩ := h.fits_at hat
        rwa [(h.trigger hhook (by simp [htime])).eq_max hlow]
      · obtain ⟨hle, hlow⟩ := past hat (by simp) hend
        rwa [(h.trigger hhook (by simp [hevery])).eq_max hlow]
      · exact (past hat (by simp) hend).1
  | commit _ _ _ hst _ => exact same hst rfl
  | cancelProcessed _ _ _ _ hst => exact same hst rfl
  | none hst | recvCancel _ _ _ hst | recvEvent _ _ _ _ hst | recalled _ _ _ hst
  | keep _ _ _ _ hst | sendFree _ _ hst | isend _ hst | create _ _ hst | createAbort hst
  | sendAbort _ hst | send _ _ _ hst | dropOutq _ _ _ hst | markAsend _ _ _ hst
  | antiMessage _ _ _ hst | dropPq _ _ _ _ hst | cancelLocal _ _ _ _ hst | requeue _ _ _ hst
  | undoneFree _ _ _ hst | undo _ _ hst | abort _ _ _ hst | dropAnti _ _ _ hst | enqueue _ _ hst
  | loadEvents _ _ hst | cancelFree _ _ _ _ hst | loadCancel _ _ hst | start _ _ hst
  | release _ _ hst | process _ _ _ _ hst | freeChild _ _ hst | cut _ _ hst | init _ hst =>
      exact same hst rfl

/-! ## A check of the care -/

namespace Pe

variable {m : SimModel T S M R} {s : Pe T S M R}

/-- The signature of the event that the handler is about to create. -/
def created (m : SimModel T S M R) (s : Pe T S M R) : Option (TwEventSig T) :=
  match s.phase with
  | .handler _ _ lp (.eventNew _ offsetTs prio _ :: _) => some (s.newSig m offsetTs lp prio)
  | .lpInit lp (.eventNew _ offsetTs prio _ :: _) => some (s.newSig m offsetTs lp prio)
  | _ => none

theorem created_of_speaks {lp destGid : Nat} {offsetTs prio : T} {msg : M}
    (h : s.Speaks lp (.eventNew destGid offsetTs prio msg)) :
    s.created m = some (s.newSig m offsetTs lp prio) := by
  obtain ⟨ops, ⟨kind, left, hat⟩ | hat⟩ := h
  · unfold created
    rw [hat.2.2]
  · unfold created
    rw [hat.2.2]

/-- No handler has run out of buffers, and none creates an event below its parent. -/
def checksCare (m : SimModel T S M R) (s : Pe T S M R) : Bool :=
  !s.cevAbort && (s.created m).all fun sig => decide (s.parentSig ≤ sig)

theorem Careful.of_check (h : s.checksCare m = true) (expired : Bool) :
    s.Careful m (.tau expired) := by
  unfold checksCare at h
  rw [Bool.and_eq_true, Bool.not_eq_true'] at h
  refine ⟨fun hu => ?_, fun lp d o p msg hsp => ?_, fun sig hsig => by cases hsig⟩
  · simp [hu.2.2.1] at h
  · have hall := h.2
    rw [created_of_speaks hsp] at hall
    exact of_decide_eq_true hall

end Pe

namespace System

variable {m : SimModel T S M R} {s s' : System T S M R}

/-- The care of a step that is not one of the hook, checked. -/
def checksCare (m : SimModel T S M R) (s : System T S M R) (l : SystemInput T M) : Bool :=
  ((List.range m.npe).all fun i => decide ((s i).sent.length < 2 ^ 32)) &&
    match l with
    | .pe i (.tau _) => (s i).checksCare m
    | .pe _ _ => false
    | _ => true

theorem Careful.of_check {l : SystemInput T M} (h : checksCare m s l = true) :
    Careful m s l := by
  unfold checksCare at h
  rw [Bool.and_eq_true, List.all_eq_true] at h
  refine ⟨fun i hi => of_decide_eq_true (h.1 i (List.mem_range.mpr hi)), fun i x hl => ?_⟩
  have hpe := h.2
  rw [hl] at hpe
  cases x with
  | tau expired => exact Pe.Careful.of_check hpe expired
  | _ => cases hpe

/-- In every careful run of the optimistic schedulers, whatever the order of the steps of the PEs
and of the arrival of messages, everything that is still to be processed, cancelled, sent or
received anywhere is at or over the GVT of each PE and over every event committed anywhere.  So no
message is a straggler below GVT, GVT is never found to have decreased, and no step lowers it. -/
theorem gvt_safe (hc : GvtConfig m) (h : CarefulRun m s) :
    (∀ i < m.npe, ∀ j < m.npe, ∀ sig, s.Awaits m j sig →
      (s i).gvtSig ≤ sig ∧ ∀ e ∈ (s i).commits, e.sig < sig) ∧
      (∀ i src, s.step m (.deliver i src) ≠ .error .receivedStraggler) ∧
      (∀ i < m.npe, ∀ gvt, (s i).phase = .gvtStore gvt →
        (s i).gvtStore m gvt ≠ .error .gvtDecreased) ∧
      ∀ l s', s.step m l = .ok s' → ∀ i < m.npe, (s i).gvtSig ≤ (s' i).gvtSig := by
  obtain ⟨hr, low, hlow⟩ := h.atGvt hc
  refine ⟨fun i hi j hj sig ha => ⟨hlow.gvtSig_le hr hi hj ha, fun e he => ?_⟩,
    fun i src hs => ?_, fun i hi gvt hg => ?_, fun l s' hs i hi => ?_⟩
  · exact ((hlow.pe i hi).floor.commits e he).trans_le (hlow.le_awaited hr hj ha).1
  · unfold step at hs
    dsimp only at hs
    split at hs
    · cases hs
    next w hw =>
      split at hs
      next hi =>
        split at hs
        · cases hs
        next e he =>
          cases hs
          have hmem := List.mem_of_mem_head? hw
          exact Pe.recv_not_straggler (hlow.gvtSig_le hr hi.1 hi.1 (.underWay hi.2 hmem)) he
      · cases hs
  · have hfits := (hlow.pe i hi).course.fits
    rw [hg] at hfits
    obtain ⟨⟨hstore, hle⟩, -⟩ := hfits
    exact Pe.gvtStore_not_decreased (hstore ▸ hle)
  · rcases deed_of hs i with ⟨x, -, -, -, -, hd⟩ | ⟨-, hst⟩
    · exact (hlow.pe i hi).course.gvtSig_mono hlow.max hd
    · exact (congrArg Stock.gvtSig hst).ge

/-- The first PE has an event at GVT sent to the second one, which has it in its priority queue. -/
theorem gvt_safe_run :
    ∃ s, CarefulRun pairModel s ∧ (s 0).gvtSig = ⟨1, 1, [0]⟩ ∧ ((s 1).queue .pq).length = 1 ∧
      ∀ sig, s.Awaits pairModel 1 sig → (s 0).gvtSig ≤ sig := by
  have hc : GvtConfig pairModel := ⟨.inl rfl, by decide, by decide, fun hg => by cases hg⟩
  have hrun : ∃ s, CarefulRun pairModel s ∧
      decide ((s 0).gvtSig = ⟨1, 1, [0]⟩ ∧ ((s 1).queue .pq).length = 1) = true :=
    ReachableVia.exists_of_runList (checksCare pairModel) _
      (List.replicate 39 (.pe 0 (.tau false)) ++ List.replicate 32 (.pe 1 (.tau false)) ++
        [.reduce .white, .pe 1 (.tau false), .deliver 1 0] ++
        List.replicate 5 (.pe 0 (.tau false)) ++ List.replicate 9 (.pe 1 (.tau false)) ++
        [.reduce .white, .reduce .lvt] ++ List.replicate 4 (.pe 0 (.tau false)) ++
        List.replicate 4 (.pe 1 (.tau false))) (fun s l => Careful.of_check) (.start rfl)
      (by decide +kernel)
  obtain ⟨s, hs, ht⟩ := hrun
  obtain ⟨hgvt, hpq⟩ := of_decide_eq_true ht
  exact ⟨s, hs, hgvt, hpq, fun sig ha =>
    ((gvt_safe hc hs).1 0 Nat.zero_lt_two 1 Nat.one_lt_two sig ha).1⟩

end System

end Ross
