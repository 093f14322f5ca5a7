import MachineLiveness.History
import MachineLiveness.Proofs.Fixpoint

/-!
A finished unit never stops its analysis: the run comes to its end, and what lives at the tail and at
the head of a block can be asked of every block. A cursor refuses to move anywhere but upward and to
tell of an entity outside the unit, and nothing else, wherever earlier commands have brought it; a
refusal leaves it as it was.
-/

namespace MachineLiveness

namespace Cursor

variable {c : Code} {u : Universe} {b : Block} {k : Cursor}

/-! ## One command -/

/-- What a cursor does not do. -/
def Refuses (c : Code) (u : Universe) (k : Cursor) : Command u → Prop
  | .execute i => k.position ≤ i
  | .executeAll => False
  | .isLive e => ¬u.Owns c e

/-- The cursor stands somewhere in the block, with a set of the size of the universe. -/
structure In (c : Code) (u : Universe) (b : Block) (k : Cursor) : Prop where
  block : k.block = b
  bound : k.live.bound = u.size c

theorem exists_execute (hb : b.Known c u) (hk : k.In c u b) {i : Nat} (hi : i < k.position) :
    ∃ k', k.execute c u i = .ok k' ∧ k'.position = i ∧ k'.In c u b ∧
      ∃ hlt : i < b.insts.size, ∀ below, k.live.Shows below → k'.live.Shows
        (Sets.through c u b.insts[i] (Sets.indices c u (lateAbove u b i)) below) := by
  obtain ⟨rfl, hbound⟩ := hk
  have hlt : i < k.block.insts.size := Nat.lt_of_lt_of_le hi k.position_le
  obtain ⟨k', hk', hblock, hpos, hbound', hshows⟩ := execute_shows hbound hb hi hlt
  exact ⟨k', hk', hpos, ⟨hblock, hbound'⟩, hlt, hshows⟩

theorem execute_of_le {i : Nat} (hi : k.position ≤ i) :
    k.execute c u i = .error ⟨.outOfOrder i k.block.id k.position, k⟩ := dif_neg (Nat.not_lt.mpr hi)

theorem exists_executeDown (hb : b.Known c u) (hk : k.In c u b) {i n : Nat}
    (hn : i + n ≤ k.position) : ∃ k', k.executeDown c u i n = .ok k' ∧ k'.In c u b := by
  induction n generalizing k with
  | zero => exact ⟨k, rfl, hk⟩
  | succ n ih =>
    obtain ⟨k₁, hstep, hpos, hk₁, -⟩ := exists_execute hb hk (i := i + n) (by omega)
    obtain ⟨k', hrest, hk'⟩ := ih hk₁ (Nat.le_of_eq hpos.symm)
    exact ⟨k', bind_eq_ok.mpr ⟨k₁, hstep, hrest⟩, hk'⟩

theorem isLive_eq (hk : k.In c u b) {e : u.Entity} {i : Nat} (hi : u.indexOf c e = .ok i) :
    k.isLive c u e = .ok (k.live.has i) := by
  refine bind_eq_ok.mpr ⟨i, hi, IndexSet.guarded_of_lt ?_⟩
  rw [hk.bound]
  exact Universe.lt_size_of_indexOf hi

/-- A command is refused, and the cursor is as before; or it is answered, and the cursor is still in
the block. -/
theorem perform_cases (hb : b.Known c u) (hk : k.In c u b) (cmd : Command u) :
    k.Refuses c u cmd ∧ (∃ f, k.perform c u cmd = (.error f, k)) ∨
      ¬k.Refuses c u cmd ∧ ∃ answer k', k.perform c u cmd = (.ok answer, k') ∧ k'.In c u b := by
  cases cmd with
  | execute i =>
    rcases Nat.lt_or_ge i k.position with hi | hi
    · obtain ⟨k', hk', -, hin, -⟩ := exists_execute hb hk hi
      exact .inr ⟨Nat.not_le.mpr hi, none, k', by rw [perform, hk']; rfl, hin⟩
    · exact .inl ⟨hi, _, by rw [perform, execute_of_le hi]; rfl⟩
  | executeAll =>
    obtain ⟨k', hk', hin⟩ := exists_executeDown hb hk (i := 0) (n := k.position - 0) (by omega)
    have hall : k.executeAll c u = .ok k' := hk'
    exact .inr ⟨id, none, k', by rw [perform, hall]; rfl, hin⟩
  | isLive e =>
    by_cases he : u.Owns c e
    · obtain ⟨i, hi⟩ := Universe.exists_indexOf.mpr he
      exact .inr ⟨fun h => h he, _, k, by rw [perform, isLive_eq hk hi]; rfl, hk⟩
    · cases hi : u.indexOf c e with
      | ok i => exact absurd (Universe.exists_indexOf.mp ⟨i, hi⟩) he
      | error f =>
        have hstop : k.isLive c u e = .error f := by rw [isLive, hi]; rfl
        exact .inl ⟨he, f, by rw [perform, hstop]; rfl⟩

/-! ## Histories -/

/-- After whatever commands a cursor has been given, it lists what is live where it stands, it answers
every command that it does not refuse, and a command that it refuses changes nothing. -/
structure Steady (c : Code) (u : Universe) (start : Cursor) : Prop where
  listed : ∀ cmds, ∃ es, (history (perform c u) start cmds).2.entities c u = .ok es
  refused : ∀ cmds cmd k, (history (perform c u) start cmds).2 = k → k.Refuses c u cmd →
    ∃ f, k.perform c u cmd = (.error f, k)
  answered : ∀ cmds cmd k, (history (perform c u) start cmds).2 = k → ¬k.Refuses c u cmd →
    ∃ answer k', k.perform c u cmd = (.ok answer, k')

theorem in_history (hb : b.Known c u) (hk : k.In c u b) (cmds : List (Command u)) :
    (history (perform c u) k cmds).2.In c u b := by
  refine history_keeps (P := In c u b) (fun k cmd hk => ?_) hk cmds
  rcases perform_cases hb hk cmd with ⟨-, f, hf⟩ | ⟨-, answer, k', hk', hin⟩
  · rw [hf]
    exact hk
  · rw [hk']
    exact hin

theorem steady_of_in (hs : c.slots.size ≤ UInt32.size) (hb : b.Known c u) (hk : k.In c u b) :
    k.Steady c u where
  listed := fun cmds => by
    obtain ⟨es, hes, -⟩ := exists_entities hs (in_history hb hk cmds).bound
    exact ⟨es, hes⟩
  refused := by
    rintro cmds cmd k' rfl hrefuses
    rcases perform_cases hb (in_history hb hk cmds) cmd with ⟨-, hf⟩ | ⟨hnot, -⟩
    · exact hf
    · exact absurd hrefuses hnot
  answered := by
    rintro cmds cmd k' rfl hnot
    rcases perform_cases hb (in_history hb hk cmds) cmd with ⟨hrefuses, -⟩ | ⟨-, answer, k', hk', -⟩
    · exact absurd hrefuses hnot
    · exact ⟨answer, k', hk'⟩

end Cursor

namespace Liveness

/-- The analysis of a finished unit ends with indices of entities of the unit, all of them of the
universe; every block's tail and head can be asked for, and a cursor in it refuses no more than it
should. -/
theorem never_stops {d : Draft} {c : Code} (u : Universe) (h : d.finish = .ok c) :
    ∃ l, compute c u = .ok l ∧ l.tails.size = c.blocks.size ∧
      (∀ tail ∈ l.tails, ∀ i ∈ tail, i < u.size c ∧ ∃ e, u.entityAt c i = .ok e ∧ u.Owns c e) ∧
      ∀ b ∈ c.blocks, (∃ es, l.atTail b.id = .ok es) ∧ (∃ es, l.atHead b = .ok es) ∧
        ∃ start, l.cursor b = .ok start ∧ start.Steady c u := by
  have hc := Draft.wellFormed_of_finish h
  have hs := Draft.slots_le_of_finish h
  obtain ⟨q, hq, hconsistent, -⟩ := Propagation.exists_least_run (u := u) hc
  refine ⟨ofRun c u q, map_eq_ok.mpr ⟨q, faultOnly_eq_ok.mpr hq, rfl⟩, hconsistent.fits.tails,
    fun tail htail i hi => ?_, fun b hmem => ?_⟩
  · obtain ⟨k, hk⟩ := Array.mem_iff_getElem?.mp htail
    have htailAt : q.tailAt k = tail := by
      have hk : q.tables.tails[k]? = some tail := hk
      rw [Propagation.tailAt, Tables.tailAt, hk, Option.getD_some]
    have hlt := hconsistent.fits.below k i (htailAt ▸ hi)
    obtain ⟨e, he⟩ := Universe.exists_entityAt hlt
    exact ⟨hlt, e, he, Universe.exists_indexOf.mp ⟨i, Universe.indexOf_entityAt hs he⟩⟩
  · obtain ⟨k, hb⟩ := Array.mem_iff_getElem?.mp hmem
    obtain ⟨tail, htail, -⟩ := exists_atTail hc hs hconsistent hb
    obtain ⟨head, hhead, -⟩ := exists_above hc hs hconsistent hb (Nat.zero_le _)
    obtain ⟨start, hstart, hshows⟩ := exists_start hc hconsistent hb
    exact ⟨⟨tail, htail⟩, ⟨head, hhead⟩, start, hstart,
      Cursor.steady_of_in hs (hc.block_known u hb) ⟨hshows.block, hshows.bound⟩⟩

/-- A new cursor refuses to tell of a temporary of the other bank, and answers for the sum. -/
theorem never_stops_sample : Draft.sample.finish = .ok Draft.sample.freeze ∧
    ∃ l, compute Draft.sample.freeze (.temps .gp) = .ok l ∧
      ∀ b ∈ Draft.sample.freeze.blocks, ∃ start, l.cursor b = .ok start ∧
        start.Steady Draft.sample.freeze (.temps .gp) ∧
        (∃ f, start.perform Draft.sample.freeze (.temps .gp) (.isLive (Temp.virtual .fp 0)) =
          (.error f, start)) ∧
        ∃ answer k, start.perform Draft.sample.freeze (.temps .gp)
          (.isLive (Temp.virtual .gp 1)) = (.ok answer, k) := by
  have hother : ¬Universe.Owns Draft.sample.freeze (.temps .gp) (Temp.virtual .fp 0) :=
    fun h => by cases h.1
  have hsum : Universe.Owns Draft.sample.freeze (.temps .gp) (Temp.virtual .gp 1) :=
    Universe.exists_indexOf.mp ⟨3, by decide +kernel⟩
  obtain ⟨l, hl, -, -, hblocks⟩ := never_stops (.temps .gp) Draft.finish_sample
  refine ⟨Draft.finish_sample, l, hl, fun b hb => ?_⟩
  obtain ⟨-, -, start, hstart, hsteady⟩ := hblocks b hb
  exact ⟨start, hstart, hsteady, hsteady.refused [] _ start rfl hother,
    hsteady.answered [] _ start rfl fun h => h hsum⟩

end Liveness

end MachineLiveness
