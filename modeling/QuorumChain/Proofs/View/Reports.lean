import QuorumChain.Proofs.View.Run

/-! What reports of one validator come to at another one. The statuses of a validator can be told apart
by their serials, and each of them is newer than those before by every measure. So what is believed of
a validator is the latest of its statuses that came in, in whatever order they did and how often. -/

namespace QuorumChain

namespace Status

variable {b s t u : Status}

/-- A status of one validator and a later one. -/
def Precedes (s t : Status) : Prop :=
  s = t ∨ (s.serial < t.serial ∧ (s.height < t.height ∨ (s.height = t.height ∧ s.round ≤ t.round)))

namespace Precedes

theorem refl (s : Status) : s.Precedes s := .inl rfl

theorem trans (h : s.Precedes t) (h' : t.Precedes u) : s.Precedes u := by
  rcases h with rfl | ⟨hserial, hplace⟩
  · exact h'
  · rcases h' with rfl | ⟨hserial', hplace'⟩
    · exact .inr ⟨hserial, hplace⟩
    · refine .inr ⟨Nat.lt_trans hserial hserial', ?_⟩
      rcases hplace with hlt | ⟨heq, hle⟩
      · rcases hplace' with hlt' | ⟨heq', _⟩
        · exact .inl (Nat.lt_trans hlt hlt')
        · exact .inl (heq' ▸ hlt)
      · rcases hplace' with hlt' | ⟨heq', hle'⟩
        · exact .inl (heq ▸ hlt')
        · exact .inr ⟨heq.trans heq', Nat.le_trans hle hle'⟩

/-- A change on the same height that is counted, and does not go back to an earlier round. -/
theorem counted (hheight : t.height = s.height) (hround : s.round ≤ t.round)
    (hserial : s.serial.next = some t.serial) : s.Precedes t := by
  exact .inr ⟨Counter.lt_of_next hserial, .inr ⟨hheight.symm, hround⟩⟩

theorem start {height : Height} {serial : Serial} (hheight : s.height.next = some height)
    (hserial : s.serial.next = some serial) : s.Precedes (.start height serial) := by
  refine .inr ⟨?_, .inl ?_⟩
  · exact Counter.lt_of_next hserial
  · exact Counter.lt_of_next hheight

theorem isNewerThan (h : s.Precedes t) (hne : s ≠ t) : t.isNewerThan s = true := by
  obtain ⟨hserial, _⟩ := h.resolve_left hne
  simp [Status.isNewerThan, hserial]

theorem not_isNewerThan (h : s.Precedes t) : s.isNewerThan t = false := by
  simp only [Status.isNewerThan, Bool.or_eq_false_iff, Bool.and_eq_false_iff,
    decide_eq_false_iff_not, beq_eq_false_iff_ne, Counter.lt_def]
  rcases h with rfl | ⟨hserial, hlt | ⟨heq, hle⟩⟩
  · exact ⟨⟨Nat.lt_irrefl _, Nat.lt_irrefl _⟩, .inr (Nat.lt_irrefl _)⟩
  · refine ⟨⟨Nat.lt_asymm hserial, Nat.lt_asymm hlt⟩, .inl ?_⟩
    rintro heq
    rw [heq] at hlt
    exact Nat.lt_irrefl _ hlt
  · refine ⟨⟨Nat.lt_asymm hserial, ?_⟩, .inr (Nat.not_lt.mpr hle)⟩
    rw [heq]
    exact Nat.lt_irrefl _

end Precedes

/-- What is believed after a report. -/
def merge (believed s : Status) : Status := if s.isNewerThan believed then s else believed

theorem merge_later (h : b.Precedes s) : b.merge s = s := by
  by_cases heq : b = s
  · rw [heq, merge, ite_self]
  · exact if_pos (h.isNewerThan heq)

theorem merge_earlier (h : s.Precedes b) : b.merge s = b :=
  if_neg (by simp [h.not_isNewerThan])

/-- The first report of a validator is believed, or says what is believed of it anyway. -/
theorem merge_unknown {height : Height} {serial : Serial} (h : (start height serial).Precedes s) :
    unknown.merge s = s := by
  rcases h with rfl | ⟨hserial, _⟩
  · unfold merge
    split
    · rfl
    next hnew =>
      simp only [isNewerThan, unknown, start, Bool.or_eq_true, decide_eq_true_eq, Counter.lt_def,
        Counter.zero, not_or, Nat.not_lt, Nat.le_zero] at hnew
      have hheight : height = .zero := Counter.ext hnew.1.2
      have hserial : serial = .zero := Counter.ext hnew.1.1
      rw [hheight, hserial, unknown]
  · refine if_pos ?_
    have hpos : (unknown.serial < s.serial) = True :=
      eq_true (Nat.lt_of_le_of_lt (Nat.zero_le _) hserial)
    simp [isNewerThan, hpos]

/-- Of statuses of one validator that are merged into one of them, the latest one is left. -/
theorem foldl_merge {history : List Status} (hordered : history.Pairwise Precedes)
    (m : Fin history.length) (moments : List (Fin history.length)) :
    ∃ latest ∈ m :: moments, (∀ k ∈ m :: moments, k ≤ latest) ∧
      (moments.map history.get).foldl merge (history.get m) = history.get latest := by
  have hprecedes : ∀ {i j : Fin history.length}, i ≤ j → (history.get i).Precedes (history.get j) := by
    intro i j hij
    rcases Nat.lt_or_eq_of_le hij with hlt | heq
    · exact List.pairwise_iff_get.mp hordered i j hlt
    · rw [Fin.ext heq]
      exact .refl _
  induction moments generalizing m with
  | nil => exact ⟨m, List.mem_cons_self, by simp, rfl⟩
  | cons k rest ih =>
      rw [List.map_cons, List.foldl_cons]
      rcases Nat.le_total m k with hmk | hkm
      · rw [merge_later (hprecedes hmk)]
        obtain ⟨latest, hmem, hbound, heq⟩ := ih k
        refine ⟨latest, List.mem_cons_of_mem _ hmem, fun i hi => ?_, heq⟩
        rcases List.mem_cons.mp hi with rfl | hi
        · exact Nat.le_trans hmk (hbound k List.mem_cons_self)
        · exact hbound i hi
      · rw [merge_earlier (hprecedes hkm)]
        obtain ⟨latest, hmem, hbound, heq⟩ := ih m
        refine ⟨latest, ?_, fun i hi => ?_, heq⟩
        · rcases List.mem_cons.mp hmem with rfl | hmem
          · exact List.mem_cons_self
          · exact List.mem_cons_of_mem _ (List.mem_cons_of_mem _ hmem)
        · rcases List.mem_cons.mp hi with rfl | hi
          · exact hbound i List.mem_cons_self
          · rcases List.mem_cons.mp hi with rfl | hi
            · exact Nat.le_trans hkm (hbound m List.mem_cons_self)
            · exact hbound i (List.mem_cons_of_mem _ hi)

end Status

namespace View

variable {n : ValidatorCount} {u v w : View n} {e : ViewEvent} {outcome : Outcome}
  {events : List ViewEvent}

theorem dropHeldBlock_precedes (h : v.dropHeldBlock = .ok w) :
    v.own.Precedes w.own ∧ w.own.height = v.own.height ∧ w.own.round = v.own.round := by
  rcases dropHeldBlock_eq_ok.mp h with ⟨_, rfl⟩ | ⟨_, serial, hserial, rfl⟩
  · exact ⟨.refl _, rfl, rfl⟩
  · rw [own_clearSignatures, own_setOwn]
    exact ⟨.counted rfl (Nat.le_refl _) hserial, rfl, rfl⟩

/-- **Every step that changes the own status counts that**, and goes to no earlier round. -/
theorem Move.precedes (h : Move v w) : v.own.Precedes w.own := by
  cases h with
  | resync hp hb hi => exact .refl _
  | fallBehind hp hb hw => exact (dropHeldBlock_precedes hw).1
  | rotate hr hq hw hround hserial =>
      refine (dropHeldBlock_precedes hw).1.trans ?_
      rw [own_setOwn]
      refine .counted rfl ?_ hserial
      rw [Counter.le_def, Counter.next_eq_some.mp hround]
      exact Nat.le_succ _
  | build hp hm => exact .refl _
  | fetch hp hm hid hh => exact .refl _
  | rest hp => exact .refl _
  | prepare hp hq hserial =>
      rw [own_setOwn]
      exact .counted rfl (Nat.le_refl _) hserial
  | decide hp hq => exact .refl _
  | ask hp hid hne => exact .refl _

theorem Effect.precedes (h : Effect v e w) : v.own.Precedes w.own := by
  cases h with
  | status hpeer hme hnew =>
      rw [own_setStatus hme]
      exact .refl _
  | received hi hserial =>
      rw [own_holding]
      exact .counted rfl (Nat.le_refl _) hserial
  | advanced hheight hserial =>
      rw [own_onHeight]
      exact .start hheight hserial
  | committed hb hheight hserial =>
      rw [own_onHeight]
      exact .start hheight hserial
  | built hi hm hserial =>
      rw [own_holding]
      exact .counted rfl (Nat.le_refl _) hserial
  | signature hpeer hp hb => exact .refl _
  | revolt hserial =>
      rw [own_setOwn]
      exact .counted rfl (Nat.le_refl _) hserial
  | fastForward hheight hserial =>
      rw [own_onHeight]
      exact .start hheight hserial
  | intentWanted => exact .refl _

theorem recompute_precedes (h : v.recompute = .ok w) : v.own.Precedes w.own :=
  recompute_induction (P := fun w => v.own.Precedes w.own) (fun hv hm => hv.trans hm.precedes)
    (fun hv => hv) (.refl _) h

/-- **Every event that changes the own status counts that**, and goes to no earlier round. -/
theorem handle_precedes (h : v.handle e = .ok (outcome, w)) : v.own.Precedes w.own :=
  handle_induction (P := fun w => v.own.Precedes w.own) (fun hv he => hv.trans he.precedes)
    (fun hv _ => hv) (fun hv hrec => hv.trans (recompute_precedes hrec)) (.refl _) h

/-- The own status at first and after each of some events. -/
def ownAlong : List ViewEvent → View n → Change n (List Status)
  | [], v => .ok [v.own]
  | e :: rest, v => do
    let (_, w) ← v.handle e
    return v.own :: (← ownAlong rest w)

theorem ownAlong_cons {history : List Status} :
    v.ownAlong (e :: events) = .ok history ↔ ∃ outcome w rest, v.handle e = .ok (outcome, w) ∧
      w.ownAlong events = .ok rest ∧ history = v.own :: rest := by
  simp only [ownAlong, bind_eq_ok, pure_eq_ok, Prod.exists]
  constructor
  · rintro ⟨outcome, w, hw, rest, hrest, rfl⟩
    exact ⟨outcome, w, rest, hw, hrest, rfl⟩
  · rintro ⟨outcome, w, rest, hw, hrest, rfl⟩
    exact ⟨outcome, w, hw, rest, hrest, rfl⟩

/-- **Each own status precedes all later ones.** -/
theorem ownAlong_ordered {history : List Status} (h : v.ownAlong events = .ok history) :
    history.Pairwise Status.Precedes ∧ ∀ s ∈ history, v.own.Precedes s := by
  induction events generalizing v history with
  | nil =>
      cases h
      simp [Status.Precedes.refl]
  | cons e rest ih =>
      obtain ⟨outcome, w, later, hw, hrest, rfl⟩ := ownAlong_cons.mp h
      obtain ⟨hordered, hlater⟩ := ih hrest
      have hall : ∀ s ∈ later, v.own.Precedes s := fun s hs => (handle_precedes hw).trans (hlater s hs)
      refine ⟨List.pairwise_cons.mpr ⟨hall, hordered⟩, fun s hs => ?_⟩
      rcases List.mem_cons.mp hs with rfl | hs
      · exact .refl _
      · exact hall s hs

/-- What a validator says of itself among some events of another one. -/
def reportsOf (i : PeerIndex) (events : List ViewEvent) : List Status :=
  events.filterMap fun
    | .status peer s => if peer = i then some s else none
    | _ => none

/-- A report of a validator is merged into what is believed of it. -/
theorem handle_report {j : Fin n.total} {s : Status} (hj : j ≠ v.me)
    (h : v.handle (.status (n.indexOf j) s) = .ok (outcome, w)) :
    w.statuses[j] = v.statuses[j].merge s := by
  change v.onStatus _ s = _ at h
  unfold onStatus at h
  simp only [ValidatorCount.memberAt?_indexOf, if_neg hj] at h
  split at h
  next hold =>
    cases h
    rw [Status.merge, if_neg (by simpa using hold)]
  next hnew =>
    obtain ⟨u, hu, h⟩ := bind_eq_ok.mp h
    cases h
    rw [(Continues.recompute hu).others j hj, Status.merge, if_pos (by simpa using hnew)]
    simp

/-- Nothing but its reports changes what is believed of a validator. -/
theorem handle_unreported {j : Fin n.total} (hj : j ≠ v.me) (he : ∀ s, e ≠ .status (n.indexOf j) s)
    (h : v.handle e = .ok (outcome, w)) : w.statuses[j] = v.statuses[j] := by
  have hboth : w.me = v.me ∧ w.statuses[j] = v.statuses[j] := by
    refine handle_induction (P := fun w => w.me = v.me ∧ w.statuses[j] = v.statuses[j])
      ?_ (fun hv _ => hv) ?_ ⟨rfl, rfl⟩ h
    · rintro u w ⟨hme, hslot⟩ heffect
      have hju : j ≠ u.me := hme ▸ hj
      refine ⟨heffect.me_eq.trans hme, Eq.trans ?_ hslot⟩
      cases heffect with
      | @status peer i s hpeer hi hnew =>
          have hij : (i : Nat) ≠ j := by
            intro hij
            refine he s ?_
            rw [ValidatorCount.memberAt?_eq_some.mp hpeer, Fin.ext hij]
          simp [hij]
      | received hi hserial => exact u.statuses_holding _ _ _ hju
      | advanced hheight hserial => exact u.statuses_onHeight _ _ hju
      | committed hb hheight hserial => exact u.statuses_onHeight _ _ hju
      | built hi hm hserial => exact u.statuses_holding _ _ _ hju
      | signature hpeer hp hb => rfl
      | revolt hserial => exact u.statuses_setOwn _ hju
      | fastForward hheight hserial => exact u.statuses_onHeight _ _ hju
      | intentWanted => rfl
    · rintro u w ⟨hme, hslot⟩ hrec
      have hc := Continues.recompute hrec
      exact ⟨hc.me_eq.trans hme, (hc.others j (hme ▸ hj)).trans hslot⟩
  exact hboth.2

/-- **What is believed of a validator is what its reports amount to**, one merged after the other. -/
theorem handleAll_statuses {j : Fin n.total} (hj : j ≠ v.me) (h : v.handleAll events = .ok w) :
    w.statuses[j] = (reportsOf (n.indexOf j) events).foldl Status.merge v.statuses[j] := by
  induction events generalizing v with
  | nil =>
      cases h
      rfl
  | cons e rest ih =>
      obtain ⟨outcome, u, hu, hrest⟩ := handleAll_cons.mp h
      rw [ih ((handle_me hu).symm ▸ hj) hrest]
      by_cases he : ∃ s, e = .status (n.indexOf j) s
      · obtain ⟨s, rfl⟩ := he
        rw [handle_report hj hu]
        simp [reportsOf]
      · rw [handle_unreported hj (not_exists.mp he) hu]
        have hskip : reportsOf (n.indexOf j) (e :: rest) = reportsOf (n.indexOf j) rest := by
          refine List.filterMap_cons_none ?_
          split
          next peer s =>
            refine if_neg ?_
            rintro rfl
            exact he ⟨s, rfl⟩
          · rfl
        rw [hskip]

section Start

variable {i j : PeerIndex} {height height' : Height} {cap cap' : Nat} {serial serial' : Serial}
  {history : List Status}

/-- **Reports converge.** A validator has been through some statuses. Another one that starts and gets
some of them, in any order and any number of times, believes the latest of those it got, whatever else
happens to it. -/
theorem reports_converge (hstart : View.start n i height cap serial = .ok u)
    (hown : u.ownAlong events = .ok history) (hij : i ≠ j)
    (hstart' : View.start n j height' cap' serial' = .ok v) {run : List ViewEvent}
    (hrun : v.handleAll run = .ok w) {moments : List (Fin history.length)}
    (hreports : reportsOf i run = moments.map history.get) (hsome : moments ≠ []) :
    (history.Pairwise fun s t => (s = t ∨ s.serial < t.serial) ∧
      (s.height < t.height ∨ (s.height = t.height ∧ s.round ≤ t.round))) ∧
    ∃ latest ∈ moments, (∀ m ∈ moments, m ≤ latest) ∧ w.statuses[u.me] = history.get latest := by
  obtain ⟨hi, hfirst, _⟩ := start_ok hstart
  obtain ⟨hj, _, hunknown, _⟩ := start_ok hstart'
  rw [ValidatorCount.memberAt?_eq_some] at hi hj
  have hne : u.me ≠ v.me := fun heq => hij (by rw [hi, hj, heq])
  obtain ⟨hordered, hafter⟩ := ownAlong_ordered hown
  constructor
  · refine hordered.imp fun {s t} hst => ?_
    rcases hst with rfl | ⟨hserial, hplace⟩
    · exact ⟨.inl rfl, .inr ⟨rfl, Nat.le_refl _⟩⟩
    · exact ⟨.inr hserial, hplace⟩
  · obtain ⟨m, rest, rfl⟩ := List.exists_cons_of_ne_nil hsome
    obtain ⟨latest, hmem, hbound, heq⟩ := Status.foldl_merge hordered m rest
    refine ⟨latest, hmem, hbound, ?_⟩
    have hm : Status.unknown.merge (history.get m) = history.get m :=
      Status.merge_unknown (hfirst ▸ hafter _ (List.get_mem history m))
    rw [handleAll_statuses hne hrun, hunknown _ hne, ← hi, hreports, List.map_cons, List.foldl_cons,
      hm, heq]

end Start

section Plain

/-- Validator 0 of the quartet, whose turn it is at first. -/
def builderView : View quartet :=
  { plainView with
    me := 0
    statuses := quartet.update (Vector.replicate quartet.total .unknown) 0 (.start .zero .zero) }

/-- Validator 0 builds a block and wants its round to end, and then the block is committed elsewhere. -/
def builderRun : List ViewEvent :=
  [.intentWanted, .built plainId ⟨⟨.fill 32 1⟩, ⟨.fill 64 1⟩⟩, .revolt, .fastForward .zero]

/-- What validator 0 said of itself meanwhile. -/
def builderStatuses : List Status :=
  [.start .zero .zero, .start .zero .zero,
    ⟨.zero, .zero, .haveBlock, some plainId, false, .ofNatClamped 1⟩,
    ⟨.zero, .zero, .haveBlock, some plainId, true, .ofNatClamped 2⟩,
    .start (.ofNatClamped 1) (.ofNatClamped 3)]

instance : NeZero builderStatuses.length := ⟨by decide⟩

def builderReports (moments : List (Fin builderStatuses.length)) : List ViewEvent :=
  moments.map fun m => .status (quartet.indexOf 0) (builderStatuses.get m)

/-- Validator 3 gets the report of the block only after the one of the revolt, and that once more at the
end, after the first of all. -/
theorem reports_converge_disordered :
    ∃ u w, View.start quartet (quartet.indexOf 0) .zero 3 .zero = .ok u ∧
      u.ownAlong builderRun = .ok builderStatuses ∧
      plainView.handleAll (builderReports [3, 2] ++ .revolt :: builderReports [0, 3]) = .ok w ∧
      w.statuses[u.me] = builderStatuses.get 3 := by
  have hu : View.start quartet (quartet.indexOf 0) .zero 3 .zero = .ok builderView := rfl
  have hstart : View.start quartet (quartet.indexOf 3) .zero 3 .zero = .ok plainView := rfl
  obtain ⟨_, hown, rfl⟩ := exists_ok (x := builderView.ownAlong builderRun)
    (P := (· = builderStatuses)) (by decide +kernel)
  obtain ⟨w, hrun, _⟩ := exists_ok
    (x := plainView.handleAll (builderReports [3, 2] ++ .revolt :: builderReports [0, 3]))
    (P := fun _ => True) (by decide +kernel)
  have hreports : reportsOf (quartet.indexOf 0)
      (builderReports [3, 2] ++ .revolt :: builderReports [0, 3]) =
        List.map builderStatuses.get [3, 2, 0, 3] := rfl
  obtain ⟨_, latest, hmem, hbound, heq⟩ :=
    reports_converge hu hown (by decide) hstart hrun hreports (by decide)
  have hlatest : latest = 3 :=
    (show ∀ k ∈ [3, 2, 0, 3], 3 ≤ k → k = (3 : Fin builderStatuses.length) by decide)
      latest hmem (hbound 3 (by decide))
  exact ⟨builderView, w, hu, hown, hrun, hlatest ▸ heq⟩

end Plain

end View

end QuorumChain
