import Mathlib.Data.List.Nodup
import MachineLiveness.Proofs.Finish
import MachineLiveness.Proofs.Legible
import Std.Data.String.ToInt

/-!
What the text of a unit tells. Nothing in it is written twice and no length is given, yet all of it
can be read back: the blocks in their order, their edges both ways, the instructions with their opcodes
and operands. Only the bank of an operand is not written, and an operand that names a temporary has
the bank of the temporary.
-/

namespace MachineLiveness

/-! ## What a text shows -/

/-- The bank of the temporary that an argument is; for anything else, the general-purpose one. -/
def Arg.ownBank : Arg → Bank
  | .temp t => t.bank
  | .slot _ | .imm _ | .addr _ _ => .gp

/-- The operand, of which the bank is left only as far as the argument tells it. -/
def Operand.written (o : Operand) : Operand := { o with bank := o.arg.ownBank }

/-- The operand without its bank, unless it names a temporary. -/
def Operand.shown (o : Operand) : Operand :=
  match o.arg with
  | .temp _ => o
  | .slot _ | .imm _ | .addr _ _ => { o with bank := .gp }

def Inst.mapOperands (f : Operand → Operand) (i : Inst) : Inst :=
  { i with operands := i.operands.map f }

def Block.mapOperands (f : Operand → Operand) (b : Block) : Block :=
  { b with insts := b.insts.map (Inst.mapOperands f) }

/-! ## Numbers and names -/

/-- The characters of a number. -/
def numeral (c : Char) : Bool := c.isDigit || c == '-'

theorem numeral_of_mem_nat {n : Nat} {c : Char} (h : c ∈ (toString n).toList) : numeral c = true := by
  rw [Nat.toString_eq_repr, Nat.toList_repr] at h
  simp [numeral, Nat.isDigit_of_mem_toDigits (by decide) (by decide) h]

theorem numeral_of_mem_int {n : Int} {c : Char} (h : c ∈ (toString n).toList) : numeral c = true := by
  rw [Int.toString_eq_repr, Int.repr_eq_if] at h
  split at h
  · exact numeral_of_mem_nat h
  · rw [String.toList_append, List.mem_append] at h
    rcases h with h | h
    · have hc : c = '-' := by simpa using h
      simp [numeral, hc]
    · exact numeral_of_mem_nat h

theorem nat_ne_nil (n : Nat) : (toString n).toList ≠ [] := by
  rw [Nat.toString_eq_repr, Nat.toList_repr]
  exact Nat.toDigits_ne_nil

theorem int_ne_nil (n : Int) : (toString n).toList ≠ [] := by
  rw [Int.toString_eq_repr, Int.repr_eq_if]
  split
  · exact nat_ne_nil _
  · simp

theorem legible_nat : Legible (fun n : Nat => toString n) id (Opens fun c => !numeral c) :=
  .word (fun _ => List.all_eq_true.mpr fun _ => numeral_of_mem_nat) fun _ _ => Nat.repr_inj.mp

theorem legible_int : Legible (fun n : Int => toString n) id (Opens fun c => !numeral c) :=
  .word (fun _ => List.all_eq_true.mpr fun _ => numeral_of_mem_int) fun _ _ => Int.repr_inj.mp

theorem sigil_mem (t : Temp) : t.sigil ∈ ["%r", "%f", "%tmp", "%ftmp"] := by
  rcases t with ⟨_ | _, _⟩ | ⟨_ | _, _⟩ <;> simp [Temp.sigil]

/-- The sigil has no numerals, and tells the kind of a temporary and its bank. -/
theorem legible_sigil :
    Legible Temp.sigil (fun t => (t.reg?.isSome, t.bank)) (Opens fun c => !!numeral c) := by
  have hsigils : ∀ s ∈ ["%r", "%f", "%tmp", "%ftmp"], s.toList.all (fun c => !numeral c) = true := by
    decide
  refine .word (fun t => hsigils _ (sigil_mem t)) fun s t h => ?_
  rcases s with ⟨_ | _, _⟩ | ⟨_ | _, _⟩ <;> rcases t with ⟨_ | _, _⟩ | ⟨_ | _, _⟩ <;>
    first | rfl | exact absurd h (by simp [Temp.sigil])

theorem temp_eq {s t : Temp} (hkind : s.reg?.isSome = t.reg?.isSome) (hbank : s.bank = t.bank)
    (hindex : s.index = t.index) : s = t := by
  cases s with
  | reg r => cases t with
    | reg r' =>
      obtain ⟨b, m⟩ := r
      obtain ⟨b', m'⟩ := r'
      have hm : m = m' := UInt8.toNat_inj.mp hindex
      have hb : b = b' := hbank
      rw [hm, hb]
    | virtual _ _ => cases hkind
  | virtual b m => cases t with
    | reg _ => cases hkind
    | virtual b' m' =>
      have hm : m = m' := UInt32.toNat_inj.mp hindex
      have hb : b = b' := hbank
      rw [hm, hb]

theorem legible_temp : Legible Temp.text id (Opens fun c => !numeral c) := by
  have h := legible_sigil.append (legible_nat.part Temp.index) fun t r _ =>
    opens_append (nat_ne_nil t.index) fun c hc => by simp [numeral_of_mem_nat hc]
  refine h.imp (fun r hr => hr) fun s t hst => ?_
  simp only [Prod.mk.injEq] at hst
  exact temp_eq hst.1.1 hst.1.2 hst.2

theorem legible_slot : Legible SlotId.text id (Opens fun c => !numeral c) :=
  ((legible_nat.part SlotId.index).before "stack").imp (fun _ hr => hr) fun _ _ h =>
    congrArg SlotId.mk (UInt32.toNat_inj.mp h)

theorem legible_blockId : Legible BlockId.text id (Opens fun c => !numeral c) :=
  ((legible_nat.part BlockId.index).before "#").imp (fun _ hr => hr) fun _ _ => BlockId.index_inj.mp

/-! ## Operands -/

/-- What the first character of an argument's text tells; a zero stands for every numeral. -/
def Arg.lead : Arg → Char
  | .temp _ => '%'
  | .slot _ => '('
  | .imm _ => '$'
  | .addr _ _ => '0'

theorem head_of_append {t : String} {c : Char} (h : t.toList.head? = some c) (x : String) :
    (t ++ x).toList.head? = some c := by
  rw [String.toList_append, List.head?_append, h, Option.some_or]

theorem lead_of_text (a : Arg) :
    ∃ c, a.text.toList.head? = some c ∧ (if numeral c then '0' else c) = a.lead := by
  cases a with
  | temp t =>
    have hsigils : ∀ s ∈ ["%r", "%f", "%tmp", "%ftmp"], s.toList.head? = some '%' := by decide
    exact ⟨'%', head_of_append (hsigils _ (sigil_mem t)) _, rfl⟩
  | slot s => exact ⟨'(', head_of_append (head_of_append (by decide) _) _, rfl⟩
  | imm v => exact ⟨'$', head_of_append (by decide) _, rfl⟩
  | addr base offset =>
    obtain ⟨c, l, hl⟩ := List.exists_cons_of_ne_nil (int_ne_nil offset.toInt)
    have hc : numeral c = true := numeral_of_mem_int (n := offset.toInt) (hl ▸ List.mem_cons_self)
    have hhead : (toString offset.toInt).toList.head? = some c := by rw [hl, List.head?_cons]
    exact ⟨c, head_of_append (head_of_append (head_of_append hhead _) _) _, if_pos hc⟩

/-- The first character tells the kind of an argument. -/
theorem lead_eq {a b : Arg} {r s : List Char} (h : a.text.toList ++ r = b.text.toList ++ s) :
    a.lead = b.lead := by
  obtain ⟨c, hc, ha⟩ := lead_of_text a
  obtain ⟨d, hd, hb⟩ := lead_of_text b
  have hhead := congrArg List.head? h
  rw [List.head?_append, List.head?_append, hc, hd] at hhead
  obtain rfl : c = d := Option.some.inj hhead
  exact ha.symm.trans hb

theorem legible_paren :
    Legible (fun s : SlotId => "(" ++ s.text ++ ")") id fun _ => True :=
  (legible_slot.before "(").close ")" (opens_text (by decide))

theorem legible_imm :
    Legible (fun v : Int64 => "$" ++ toString v.toInt) id (Opens fun c => !numeral c) :=
  ((legible_int.part Int64.toInt).before "$").imp (fun _ hr => hr) fun _ _ => Int64.toInt_inj.mp

theorem legible_addr :
    Legible (fun p : Int32 × Temp => toString p.1.toInt ++ "(" ++ p.2.text ++ ")") id
      fun _ => True := by
  have h := (((legible_int.part fun p : Int32 × Temp => p.1.toInt).close "("
    (opens_text (by decide))).append (legible_temp.part Prod.snd) fun _ _ _ => trivial).close ")"
      (opens_text (by decide))
  refine h.imp (fun _ hr => hr) fun p q hpq => ?_
  simp only [Prod.mk.injEq] at hpq
  exact Prod.ext (Int32.toInt_inj.mp hpq.1) hpq.2

theorem legible_arg : Legible Arg.text id (Opens fun c => !numeral c) := by
  intro a b r s hr hs h
  have hlead := lead_eq h
  cases a with
  | temp t => cases b with
    | temp t' =>
      obtain ⟨rfl, hrest⟩ := legible_temp t t' r s hr hs h
      exact ⟨rfl, hrest⟩
    | _ => cases hlead
  | slot i => cases b with
    | slot i' =>
      obtain ⟨rfl, hrest⟩ := legible_paren i i' r s trivial trivial h
      exact ⟨rfl, hrest⟩
    | _ => cases hlead
  | imm v => cases b with
    | imm v' =>
      obtain ⟨rfl, hrest⟩ := legible_imm v v' r s hr hs h
      exact ⟨rfl, hrest⟩
    | _ => cases hlead
  | addr base offset => cases b with
    | addr base' offset' =>
      obtain ⟨hsame, hrest⟩ := legible_addr (offset, base) (offset', base') r s trivial trivial h
      cases hsame
      exact ⟨rfl, hrest⟩
    | _ => cases hlead

theorem legible_role : Legible Role.tail id (Starts [", ", "\n"]) := by
  have h : Legible Role.tail id (Opens fun c => !(c == ':' || c.isLower)) := by
    refine .word (fun r => ?_) fun r r' hr => ?_
    · cases r <;> rfl
    · cases r <;> cases r' <;> first | rfl | exact absurd hr (by decide)
  exact h.imp (fun r hr => hr.opens (by decide)) fun _ _ h => h

theorem legible_operand : Legible Operand.text Operand.written (Starts [", ", "\n"]) := by
  have h := (legible_arg.part Operand.arg).append (legible_role.part Operand.role) fun o r hr => by
    cases o.role with
    | earlyUse => exact hr.opens (by decide)
    | lateUse => exact opens_text (by decide) r
    | define => exact opens_text (by decide) r
    | useDefine => exact opens_text (by decide) r
    | scratch => exact opens_text (by decide) r
  refine h.imp (fun _ hr => hr) fun o o' ho => ?_
  simp only [id, Prod.mk.injEq] at ho
  simp [Operand.written, ho.1, ho.2]

/-! ## Instructions -/

/-- The text of an instruction's operands: a blank before the first and a comma before each other. -/
def operandsText : List Operand → String
  | [] => ""
  | o :: os => " " ++ o.text ++ String.join (os.map fun o => ", " ++ o.text)

theorem intercalate_cons (t u : String) (us : List String) :
    t.intercalate (u :: us) = u ++ String.join (us.map (t ++ ·)) := by
  induction us generalizing u with
  | nil => simp
  | cons v us ih =>
    rw [String.intercalate_cons_cons, ih, List.map_cons, String.join_cons]
    simp only [String.append_assoc]

theorem text_eq (i : Inst) : i.text = i.opcode.name ++ operandsText i.operands := by
  unfold Inst.text
  cases i.operands with
  | nil => simp [operandsText]
  | cons o os => simp [operandsText, intercalate_cons, String.append_assoc, Function.comp_def]

theorem prefix_append_text (t u : String) : t.toList <+: (t ++ u).toList := by
  rw [String.toList_append]
  exact List.prefix_append _ _

theorem tagged_operands : Tagged operandsText (List.map Operand.written) " " ["\n"] := by
  have hothers : Tagged (fun os : List Operand => String.join (os.map fun o => ", " ++ o.text))
      (List.map Operand.written) ", " ["\n"] :=
    .join (legible_operand.before ", ") (fun o => prefix_append_text _ _) (by decide) (by decide)
      fun r hr => hr
  have h := ((legible_operand.before " ").part Prod.fst).append (hothers.legible.part Prod.snd)
    fun p r hr => hothers.starts p.2 r hr
  refine .optional (h.imp (fun _ hr => hr) fun p q hpq => ?_) rfl (fun _ _ => rfl) (fun p => ?_)
    (by decide) (by decide) fun _ hr => hr
  · simp only [Prod.mk.injEq] at hpq
    rw [List.map_cons, List.map_cons, hpq.1, hpq.2]
  · rw [String.append_assoc]
    exact prefix_append_text _ _

theorem legible_name : Legible Opcode.name id (Opens fun c => !c.isLower) := by
  have hnames : (Opcode.all.map Opcode.name).Nodup := by decide
  refine .word (fun o => ?_) fun o o' ho => ?_
  · cases o <;> rfl
  · exact List.inj_on_of_nodup_map hnames o.mem_all o'.mem_all ho

theorem legible_inst : Legible Inst.text (Inst.mapOperands Operand.written) (Starts ["\n"]) := by
  have h := (legible_name.part Inst.opcode).append (tagged_operands.legible.part Inst.operands)
    fun i r hr => (tagged_operands.starts i.operands r hr).opens (by decide)
  rw [show Inst.text = fun i => i.opcode.name ++ operandsText i.operands from funext text_eq]
  refine h.imp (fun _ hr => hr) fun i i' hi => ?_
  simp only [id, Prod.mk.injEq] at hi
  simp [Inst.mapOperands, hi.1, hi.2]

/-! ## Blocks -/

theorem tagged_insts :
    Tagged (fun is : List Inst => String.join (is.map fun i => "    " ++ i.text ++ "\n"))
      (List.map (Inst.mapOperands Operand.written)) "    " ["  successors:", "BB"] := by
  have hline := (legible_inst.before "    ").close "\n" fun r => starts_append (by decide) r
  refine .join hline (fun i => ?_) (by decide) (by decide) fun _ _ => trivial
  rw [String.append_assoc]
  exact prefix_append_text _ _

theorem tagged_line {heading : String} {ts : List String} (hne : heading.toList ≠ [])
    (hts : ∀ t ∈ ts, Apart heading t) : Tagged (BlockId.line heading) id heading ts := by
  have hids : Tagged (fun bs : List BlockId => String.join (bs.map fun b => " " ++ b.text))
      (List.map id) " " ["\n"] :=
    .join (legible_blockId.before " ") (fun b => prefix_append_text _ _) (by decide) (by decide)
      fun r hr => hr.opens (by decide)
  have hfull := ((hids.legible.part fun p : BlockId × List BlockId => p.1 :: p.2).before heading).close
    "\n" fun r => starts_append (by decide) r
  refine .optional (hfull.imp (fun _ hr => hr) fun p q hpq => ?_) rfl (fun _ _ => rfl) (fun p => ?_)
    hne hts fun _ _ => trivial
  · simpa using hpq
  · rw [String.append_assoc]
    exact prefix_append_text _ _

theorem legible_block : Legible Block.text (Block.mapOperands Operand.written) (Starts ["BB"]) := by
  have hid := ((legible_blockId.part Block.id).before "BB").close ":\n" (opens_text (by decide))
  have hpredecessors : Tagged (BlockId.line "  predecessors:") id "  predecessors:"
      ["    ", "  successors:", "BB"] := tagged_line (by decide) (by decide)
  have hsuccessors : Tagged (BlockId.line "  successors:") id "  successors:" ["BB"] :=
    tagged_line (by decide) (by decide)
  have h := ((hid.append (hpredecessors.legible.part Block.predecessors) fun _ _ _ => trivial).append
    (tagged_insts.legible.part fun b : Block => b.insts.toList) fun b r hr =>
      tagged_insts.starts b.insts.toList r hr).append (hsuccessors.legible.part Block.successors)
        fun b r hr => hsuccessors.starts b.successors r hr
  refine h.imp (fun _ hr => hr) fun b b' hb => ?_
  simp only [id, Prod.mk.injEq] at hb
  obtain ⟨⟨⟨hid, hpredecessors⟩, hinsts⟩, hsuccessors⟩ := hb
  simp [Block.mapOperands, hid, hpredecessors, hsuccessors, ← Array.toList_inj, hinsts]

theorem tagged_blocks : Tagged (fun bs : List Block => String.join (bs.map Block.text))
    (List.map (Block.mapOperands Operand.written)) "BB" [] := by
  refine .join legible_block (fun b => ?_) (by decide) (by decide) fun _ hr => hr
  simp only [Block.text, String.append_assoc]
  exact prefix_append_text _ _

/-! ## Units -/

theorem operandsText_map {f : Operand → Operand} (hf : ∀ o, (f o).text = o.text)
    (os : List Operand) : operandsText (os.map f) = operandsText os := by
  cases os with
  | nil => rfl
  | cons o os => simp [operandsText, hf, Function.comp_def]

theorem text_mapOperands {f : Operand → Operand} (hf : ∀ o, (f o).text = o.text) (b : Block) :
    (b.mapOperands f).text = b.text := by
  have hinst (i : Inst) : (i.mapOperands f).text = i.text := by
    rw [text_eq, text_eq, Inst.mapOperands, operandsText_map hf]
  simp [Block.text, Block.mapOperands, Function.comp_def, hinst]

theorem written_text (o : Operand) : o.written.text = o.text :=
  rfl

/-- Two units have the same text exactly when their blocks are the same up to the banks of operands. -/
theorem text_eq_iff_written {c c' : Code} : c.text = c'.text ↔
    c.blocks.map (Block.mapOperands Operand.written) =
      c'.blocks.map (Block.mapOperands Operand.written) := by
  constructor
  · intro h
    have htext : (String.join (c.blocks.toList.map Block.text)).toList ++ [] =
        (String.join (c'.blocks.toList.map Block.text)).toList ++ [] := by
      rw [show String.join (c.blocks.toList.map Block.text) = c.text from rfl, h, Code.text]
    have hblocks := (tagged_blocks.legible _ _ [] [] (.inl rfl) (.inl rfl) htext).1
    rw [← Array.toList_inj, Array.toList_map, Array.toList_map, hblocks]
  · intro h
    have hmap (c : Code) : c.blocks.map Block.text =
        (c.blocks.map (Block.mapOperands Operand.written)).map Block.text := by
      rw [Array.map_map]
      exact congrArg (c.blocks.map ·) (funext fun b => (text_mapOperands written_text b).symm)
    rw [Code.text, Code.text, ← Array.toList_map, ← Array.toList_map, hmap c, h, ← hmap c']

/-- In a well formed unit the text leaves open only the banks of what is no temporary. -/
theorem written_eq_shown {a : Allocated} {o : Operand} (h : a.Admits o) : o.written = o.shown := by
  obtain ⟨arg, role, bank⟩ := o
  cases arg with
  | temp t =>
    have hbank : t.bank = bank := h.1
    simp [Operand.written, Operand.shown, Arg.ownBank, hbank]
  | slot s => rfl
  | imm v => rfl
  | addr base offset => rfl

theorem map_written_eq_shown {c : Code} (hc : c.WellFormed) :
    c.blocks.map (Block.mapOperands Operand.written) =
      c.blocks.map (Block.mapOperands Operand.shown) := by
  refine Array.map_congr_left fun b hb => ?_
  have hinsts : b.insts.map (Inst.mapOperands Operand.written) =
      b.insts.map (Inst.mapOperands Operand.shown) := by
    refine Array.map_congr_left fun i hi => ?_
    have hadmits := (hc.blocks b hb).operands_admitted i (Array.mem_toList_iff.mpr hi)
    rw [Inst.mapOperands, Inst.mapOperands,
      List.map_congr_left fun o ho => written_eq_shown (hadmits o ho)]
  rw [Block.mapOperands, Block.mapOperands, hinsts]

/-- The texts of two finished units are equal exactly when the units have the same blocks, in the same
order and with the same edges both ways, with the same instructions up to the banks of the slots,
constants and addresses that these name. -/
theorem dump_unambiguous {d d' : Draft} {c c' : Code} (h : d.finish = .ok c)
    (h' : d'.finish = .ok c') : c.text = c'.text ↔
      c.blocks.map (Block.mapOperands Operand.shown) =
        c'.blocks.map (Block.mapOperands Operand.shown) := by
  rw [text_eq_iff_written, map_written_eq_shown (Draft.wellFormed_of_finish h),
    map_written_eq_shown (Draft.wellFormed_of_finish h')]

/-- A block that ends with a slot, a constant and an address in some bank. -/
def Draft.banked (b : Bank) : Draft := ((Draft.empty ⟨2, 1⟩).performAll [
  .addTemp .gp, .addSlot ⟨8, .spill⟩, .addBlock, .addBlock,
  .push ⟨0⟩ ⟨.branch, [.ofTemp (.virtual .gp 0) .lateUse]⟩,
  .push ⟨1⟩ ⟨.ret, [⟨.slot ⟨0⟩, .lateUse, b⟩, ⟨.imm (-1), .earlyUse, b⟩,
    ⟨.addr (.virtual .gp 0) (-8), .useDefine, b⟩, .ofTemp (.reg ⟨.fp, 0⟩) .scratch]⟩,
  .addSuccessor ⟨0⟩ ⟨1⟩, .addSuccessor ⟨0⟩ ⟨1⟩]).2

theorem dump_unambiguous_banked :
    (Draft.banked .gp).finish = .ok (Draft.banked .gp).freeze ∧
      (Draft.banked .fp).finish = .ok (Draft.banked .fp).freeze ∧
      (Draft.banked .gp).freeze ≠ (Draft.banked .fp).freeze ∧
      (Draft.banked .gp).freeze.text = (Draft.banked .fp).freeze.text := by
  have h (b : Bank) : (Draft.banked b).finish = .ok (Draft.banked b).freeze :=
    Draft.finish_eq_ok.mpr ⟨by cases b <;> decide +kernel, rfl⟩
  exact ⟨h .gp, h .fp, by decide +kernel, (dump_unambiguous (h .gp) (h .fp)).mpr (by decide +kernel)⟩

end MachineLiveness
