import QuorumChain.Proofs.Validator.Coupling

/-! What a validator is bound to. A block that is prepared stays until it is stored, and a block that is
stored stays for good, so a validator is bound to one block of a height at most and never to another
one later. -/

namespace QuorumChain

namespace Core

variable {n : ValidatorCount} [CryptoSuite] {c c' : Core n} {e : ValidatorEvent}
  {h : Height} {r r' : BlockId}

/-- The block is prepared at the height, or stored there. -/
def Locked (c : Core n) (h : Height) (r : BlockId) : Prop :=
  (c.view.own.height = h ∧ c.view.own.phase = .prepared ∧ c.view.own.block = some r) ∨
    ∃ b, c.blocks[h.number]? = some b ∧ b.id = r

/-- **A validator is bound to one block of a height at most.** -/
theorem Coupled.locked_unique (hc : c.Coupled) (hl : c.Locked h r) (hl' : c.Locked h r') : r = r' := by
  have hmixed : ∀ {r b}, c.view.own.height = h → c.view.own.phase = .prepared →
      c.view.own.block = some r → c.blocks[h.number]? = some b → b.id = r := by
    intro r b hheight hphase hblock hb
    rw [← hheight] at hb
    rcases hc.agrees b hb with hwait | ⟨_, hid⟩
    · exact nomatch hphase.symm.trans hwait
    · exact Option.some.inj (hid.symm.trans hblock)
  rcases hl with ⟨hheight, hphase, hblock⟩ | ⟨b, hb, rfl⟩
  · rcases hl' with ⟨_, _, hblock'⟩ | ⟨b', hb', rfl⟩
    · exact Option.some.inj (hblock.symm.trans hblock')
    · exact (hmixed hheight hphase hblock hb').symm
  · rcases hl' with ⟨hheight, hphase, hblock⟩ | ⟨b', hb', rfl⟩
    · exact hmixed hheight hphase hblock hb
    · rw [Option.some.inj (hb.symm.trans hb')]

/-- A block that the validator has, under way or stored. -/
def Has (c : Core n) (b : Block) : Prop :=
  (c.view.own.block = some b.id ∧ c.current = some b) ∨ ∃ w ∈ c.blocks, w.block = b

instance (c : Core n) (b : Block) : Decidable (c.Has b) :=
  inferInstanceAs (Decidable (_ ∧ _ ∨ ∃ w ∈ c.blocks, _))

/-- All blocks that a validator has. -/
def held (c : Core n) : List Block :=
  (c.current.filter fun b => c.view.own.block = some b.id).toList ++ c.blocks.map (·.block)

theorem mem_held {b : Block} : b ∈ c.held ↔ c.Has b := by
  simp only [held, Has, List.mem_append, Option.mem_toList, Option.filter_eq_some_iff,
    List.mem_map, decide_eq_true_eq, and_comm]

/-- The validator has the block of an identifier at a height, or is bound to it. -/
def Keeps (c : Core n) (h : Height) (r : BlockId) : Prop :=
  c.Locked h r ∨ (c.view.own.height = h ∧ c.view.own.block = some r)

theorem Coupled.stored_at (hc : c.Coupled) {w : WitnessedBlock} (hw : w ∈ c.blocks) :
    c.blocks[w.block.height.number]? = some w := by
  obtain ⟨k, hk⟩ := List.mem_iff_getElem?.mp hw
  rw [hc.heights k w hk]
  exact hk

/-- A block that the validator keeps is there. -/
theorem Coupled.exists_has (hc : c.Coupled) (hk : c.Keeps h r) :
    ∃ b, c.Has b ∧ b.id = r ∧ b.height = h := by
  rcases hk with (⟨rfl, _, hblock⟩ | ⟨w, hw, rfl⟩) | ⟨rfl, hblock⟩
  · obtain ⟨b, hcurrent, rfl, hheight⟩ := hc.keeps _ hblock
    exact ⟨b, .inl ⟨hblock, hcurrent⟩, rfl, hheight⟩
  · refine ⟨w.block, .inr ⟨w, List.mem_of_getElem? hw, rfl⟩, rfl, ?_⟩
    exact Counter.ext (hc.heights _ w hw)
  · obtain ⟨b, hcurrent, rfl, hheight⟩ := hc.keeps _ hblock
    exact ⟨b, .inl ⟨hblock, hcurrent⟩, rfl, hheight⟩

/-- Blocks are only ever stored on top. -/
theorem Step.blocks_extend (hs : Step e c c') : c.blocks <+: c'.blocks := by
  cases hs with
  | view _ _ => exact List.prefix_rfl
  | jump _ _ _ _ => exact List.prefix_rfl
  | hear he hsender hkey hblock hvalid hview =>
      rcases Database.verifySignature_cases hvalid with ⟨_, rfl⟩ | ⟨_, _, _, _, _, rfl⟩
      · exact List.prefix_rfl
      · exact List.prefix_rfl
  | issue _ _ => exact List.prefix_rfl
  | run _ _ hd => exact (Database.perform_cases hd).blocks_extend
  | take _ _ _ => exact List.prefix_rfl

theorem halt_blocks (c : Core n) : c.halt.blocks = c.blocks :=
  (Database.stop_fails c.database).blocks_eq

/-- What a step makes of the own status: it keeps height and block, or gives up a block that is not
prepared. Only with the result of work does it get to another block, or to the next height after the
block of its height was stored. -/
theorem Coupled.own_step (hc : c.Coupled) (hrunning : c.running = true) (hs : Step e c c') :
    c.view.own.Persists c'.view.own ∨
      (e = .resultTaken ∧ (∃ result, c.work = some (.done result) ∧ ¬ result.IsFailure) ∧
        ((c.view.own.phase = .waitBlock ∧ c'.view.own.height = c.view.own.height) ∨
          (c.Ahead ∧ c.view.own.height.number + 1 = c'.view.own.height.number))) := by
  cases hs with
  | view hve hview =>
      exact .inl (View.handle_quiet hve.isQuiet hview).2
  | jump hidle hbest hge _ => exact absurd hge (hc.not_below_best (hc.idle hrunning hidle).2 hbest)
  | hear _ _ _ _ _ hview => exact .inl (View.handle_quiet (e := .signature _ _ _) trivial hview).2
  | issue _ _ => exact .inl (.refl _)
  | run _ _ _ => exact .inl (.refl _)
  | take he hwork htakes =>
      have hadmits := hc.admits hrunning
      rw [hwork] at hadmits
      cases htakes with
      | failed _ => exact .inl (.refl _)
      | loaded hview =>
          rcases View.handle_signed (.inl rfl) hview with ⟨_, _, hown, _⟩ | ⟨_, serial, hrec⟩
          · exact .inl (hown ▸ .refl _)
          · exact .inr ⟨he, ⟨_, hwork, nofun⟩, .inl ⟨hadmits.2.1, (View.recompute_holding hrec).2.1⟩⟩
      | built hview =>
          rcases View.handle_signed (.inr rfl) hview with ⟨_, _, hown, _⟩ | ⟨_, serial, hrec⟩
          · exact .inl (hown ▸ .refl _)
          · exact .inr ⟨he, ⟨_, hwork, nofun⟩, .inl ⟨hadmits.2.1, (View.recompute_holding hrec).2.1⟩⟩
      | added hnext hview =>
          obtain ⟨hahead, _, rfl⟩ := hadmits
          obtain ⟨_, _, hheight, _, _⟩ :=
            View.handle_advanced (Counter.next_eq_some.mpr hnext) hview
          exact .inr ⟨he, ⟨_, hwork, nofun⟩, .inr ⟨hahead, (hheight ▸ hnext).symm⟩⟩
      | committed hview =>
          obtain ⟨hahead, _, hblock⟩ := hadmits
          obtain ⟨_, _, hheight, _, _⟩ := View.handle_committed hblock hview
          exact .inr ⟨he, ⟨_, hwork, nofun⟩, .inr ⟨hahead, hheight.symm⟩⟩

/-- What is stored stays stored. -/
theorem Step.stored (hs : Step e c c') {k : Nat} {b : WitnessedBlock} (hb : c.blocks[k]? = some b) :
    c'.blocks[k]? = some b := by
  obtain ⟨rest, hrest⟩ := hs.blocks_extend
  rw [← hrest, List.getElem?_append_left (List.getElem?_eq_some_iff.mp hb).1]
  exact hb

/-- When the block of the own height is stored, a block that the validator has is that one. -/
theorem Coupled.stored_own (hc : c.Coupled) (hahead : c.Ahead) (hheight : c.view.own.height = h)
    (hblock : c.view.own.block = some r) : ∃ b, c.blocks[h.number]? = some b ∧ b.id = r := by
  subst hheight
  have hlt : c.view.own.height.number < c.blocks.length := by
    rw [hahead]
    omega
  have hb := List.getElem?_eq_getElem hlt
  refine ⟨_, hb, ?_⟩
  rcases hc.agrees _ hb with hwait | ⟨_, hid⟩
  · exact absurd hwait (hc.coherent.not_waiting hblock)
  · exact Option.some.inj (hid.symm.trans hblock)

/-- **What a validator is bound to it stays bound to.** -/
theorem Coupled.locked_step (hc : c.Coupled) (hrunning : c.running = true) (hs : Step e c c')
    (hl : c.Locked h r) : c'.Locked h r := by
  rcases hl with ⟨hheight, hphase, hblock⟩ | ⟨b, hb, hid⟩
  · rcases hc.own_step hrunning hs with hp | ⟨_, _, ⟨hwait, _⟩ | ⟨hahead, _⟩⟩
    · exact .inl ⟨hp.1.trans hheight, (hp.prepared hphase).1, (hp.prepared hphase).2.trans hblock⟩
    · exact nomatch hphase.symm.trans hwait
    · obtain ⟨b, hb, hid⟩ := hc.stored_own hahead hheight hblock
      exact .inr ⟨b, hs.stored hb, hid⟩
  · exact .inr ⟨b, hs.stored hb, hid⟩

theorem Coupled.locked_path (hc : c.Coupled) (hrunning : c.running = true) (hs : Path e c c')
    (hl : c.Locked h r) : c'.Locked h r := by
  induction hs with
  | refl => exact hl
  | tail hpath hstep ih =>
      obtain ⟨hc', hrunning'⟩ := hc.path hrunning hpath
      exact hc'.locked_step hrunning' hstep ih

theorem locked_halt (hl : c.Locked h r) : c.halt.Locked h r := by
  rcases hl with hown | ⟨b, hb, hid⟩
  · exact .inl hown
  · refine .inr ⟨b, ?_, hid⟩
    rw [halt_blocks]
    exact hb

/-- The height never goes down. -/
theorem Coupled.height_step (hc : c.Coupled) (hrunning : c.running = true) (hs : Step e c c') :
    c.view.own.height ≤ c'.view.own.height := by
  rcases hc.own_step hrunning hs with hp | ⟨_, _, ⟨_, hheight⟩ | ⟨_, hnext⟩⟩
  · exact Nat.le_of_eq (congrArg Counter.number hp.1.symm)
  · exact Nat.le_of_eq (congrArg Counter.number hheight.symm)
  · exact Nat.le_of_succ_le (Nat.le_of_eq hnext)

end Core

namespace Validator

open QuorumChain.Core

variable {n : ValidatorCount} [CryptoSuite] {v : Node n} {h : Height} {r : BlockId}

theorem locked_handle (hv : v.core.Coupled) (e : ValidatorEvent) (hl : v.core.Locked h r) :
    (v.handle e).2.core.Locked h r :=
  (handle_induction (P := fun c => c.Coupled ∧ c.Locked h r)
    (fun hc hrunning hs => ⟨hc.1.step hrunning hs, hc.1.locked_step hrunning hs hc.2⟩)
    (fun hc => ⟨hc.1.halt, locked_halt hc.2⟩) ⟨hv, hl⟩).2

theorem height_handle (hv : v.core.Coupled) (e : ValidatorEvent) :
    v.own.height ≤ (v.handle e).2.own.height :=
  (handle_induction (P := fun c => c.Coupled ∧ v.own.height ≤ c.view.own.height)
    (fun hc hrunning hs => ⟨hc.1.step hrunning hs, Nat.le_trans hc.2 (hc.1.height_step hrunning hs)⟩)
    (fun hc => ⟨hc.1.halt, hc.2⟩) ⟨hv, Nat.le_refl _⟩).2

end Validator

end QuorumChain
