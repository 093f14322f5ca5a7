import Mathlib.Data.List.Nodup
import MachineLiveness.Json.Form

/-!
The JSON form keeps everything: what is written of a unit or of one of its parts is read back as the
same value, whatever the unit is and however large its numbers are. So no two values share a form.
-/

namespace MachineLiveness

namespace Json

variable {α : Type} {write : α → Json} {read : Json → Option α}

/-- Reading what was written gives the value back, and no two values are written alike. -/
structure Faithful (write : α → Json) (read : Json → Option α) : Prop where
  read_write : ∀ a, read (write a) = some a
  write_inj : Function.Injective write

theorem faithful_of_read (h : ∀ a, read (write a) = some a) : Faithful write read where
  read_write := h
  write_inj := by
    intro a b hab
    have hread : read (write a) = some b := hab ▸ h b
    exact Option.some.inj ((h a).symm.trans hread)

/-! ## Values of JSON -/

theorem mapM_eq_some_map {α β : Type} {f : α → Option β} {g : α → β} {as : List α}
    (h : ∀ a ∈ as, f a = some (g a)) : as.mapM f = some (as.map g) := by
  induction as with
  | nil => rfl
  | cons a as ih =>
    have hrest := ih fun b hb => h b (List.mem_cons_of_mem _ hb)
    simp [List.mapM_cons, h a List.mem_cons_self, hrest]

theorem list?_ofList (h : ∀ a, read (write a) = some a) (as : List α) :
    (ofList write as).list? read = some as := by
  rw [ofList, list?, List.mapM_map]
  simpa using mapM_eq_some_map (f := read ∘ write) (g := id) fun a (_ : a ∈ as) => h a

theorem intFrom?_int {lo hi n : Int} (hlo : lo ≤ n) (hhi : n < hi) :
    (Json.int n).intFrom? lo hi = some n :=
  if_pos ⟨hlo, hhi⟩

@[simp] theorem uint8?_int (n : UInt8) : (Json.int n.toNat).uint8? = some n := by
  have hn := n.toNat_lt_size
  rw [uint8?, intFrom?_int (by omega) (by omega)]
  simp

@[simp] theorem uint32?_int (n : UInt32) : (Json.int n.toNat).uint32? = some n := by
  have hn := n.toNat_lt_size
  rw [uint32?, intFrom?_int (by omega) (by omega)]
  simp

@[simp] theorem int32?_int (n : Int32) : (Json.int n.toInt).int32? = some n := by
  have hn := n.toInt_le
  rw [int32?, intFrom?_int n.minValue_le_toInt (by omega)]
  simp

@[simp] theorem int64?_int (n : Int64) : (Json.int n.toInt).int64? = some n := by
  have hn := n.toInt_le
  rw [int64?, intFrom?_int n.minValue_le_toInt (by omega)]
  simp

/-- Fields of different names are found by their names. -/
theorem lookup_of_mem {fields : List (String × Json)} (hnames : (fields.map Prod.fst).Nodup)
    {field : String × Json} (h : field ∈ fields) : fields.lookup field.1 = some field.2 := by
  induction fields with
  | nil => cases h
  | cons first rest ih =>
    rw [List.map_cons, List.nodup_cons] at hnames
    rcases List.mem_cons.mp h with rfl | h
    · exact List.lookup_cons_self
    · have hne : field.1 ≠ first.1 :=
        fun he => hnames.1 (he ▸ List.mem_map_of_mem h)
      rw [List.lookup_cons, beq_false_of_ne hne]
      exact ih hnames.2 h

/-- An object gives its fields back to whoever knows their names. -/
theorem fields?_obj {names : List String} {fields : List (String × Json)}
    (h : fields.map Prod.fst = names) (hnames : names.Nodup) :
    (Json.obj fields).fields? names = some (fields.map Prod.snd) := by
  subst h
  rw [fields?, List.mapM_map]
  exact mapM_eq_some_map fun field hfield => lookup_of_mem hnames hfield

/-- A record is read by what reads its values, in the order in which they were written. -/
theorem read_record {names : List String} {fields : List (String × Json)}
    {f : List Json → Option α} {r : Option α} (h : fields.map Prod.fst = names)
    (hnames : names.Nodup) (hf : f (fields.map Prod.snd) = r) :
    ((Json.obj fields).record? names >>= f) = r := by
  have hfields : (Json.obj fields).record? names = some (fields.map Prod.snd) :=
    fields?_obj h hnames
  rw [hfields, Option.bind_eq_bind, Option.bind_some, hf]

/-- A value of some kind is read by what reads its kind. -/
theorem read_variant {kind : String} {j : Json} {f : String × Json → Option α} {r : Option α}
    (hf : f (kind, j) = r) : ((ofVariant kind j).variant? >>= f) = r :=
  hf

/-- A name tells its value when all the names differ. -/
theorem named?_name {all : List α} {name : α → String} (hnames : (all.map name).Nodup) {a : α}
    (ha : a ∈ all) : (Json.str (name a)).named? all name = some a := by
  rw [named?]
  cases hb : all.find? fun b => name b = name a with
  | none => simpa using List.find?_eq_none.mp hb a ha
  | some b =>
    have hname : name b = name a := by simpa using List.find?_some hb
    rw [List.inj_on_of_nodup_map hnames (List.mem_of_find?_eq_some hb) ha hname]

end Json

/-! ## Names and numbers -/

theorem Role.mem_all (r : Role) : r ∈ all := by
  cases r <;> decide

theorem SlotKind.mem_all (k : SlotKind) : k ∈ all := by
  cases k <;> decide

@[simp] theorem Bank.ofJson?_toJson (b : Bank) : ofJson? b.toJson = some b :=
  Json.named?_name (by decide) b.mem_all

@[simp] theorem Role.ofJson?_toJson (r : Role) : ofJson? r.toJson = some r :=
  Json.named?_name (by decide) r.mem_all

@[simp] theorem Opcode.ofJson?_toJson (o : Opcode) : ofJson? o.toJson = some o :=
  Json.named?_name (by decide) o.mem_all

@[simp] theorem SlotKind.ofJson?_toJson (k : SlotKind) : ofJson? k.toJson = some k :=
  Json.named?_name (by decide) k.mem_all

@[simp] theorem SlotId.ofJson?_toJson (s : SlotId) : ofJson? s.toJson = some s := by
  simp [ofJson?, toJson, index]

@[simp] theorem BlockId.ofJson?_toJson (b : BlockId) : ofJson? b.toJson = some b := by
  simp [ofJson?, toJson, index]

/-! ## Records and kinds -/

@[simp] theorem Reg.ofJson?_toJson (r : Reg) : ofJson? r.toJson = some r := by
  refine Json.read_record rfl (by decide) ?_
  simp [index]

@[simp] theorem Temp.ofJson?_toJson (t : Temp) : ofJson? t.toJson = some t := by
  cases t with
  | reg r =>
    refine Json.read_variant ?_
    simp
  | virtual b n =>
    refine Json.read_variant ?_
    simp [Json.fields?_obj]

@[simp] theorem Arg.ofJson?_toJson (a : Arg) : ofJson? a.toJson = some a := by
  cases a with
  | temp t =>
    refine Json.read_variant ?_
    simp
  | slot s =>
    refine Json.read_variant ?_
    simp
  | imm v =>
    refine Json.read_variant ?_
    simp
  | addr base offset =>
    refine Json.read_variant ?_
    simp [Json.fields?_obj]

@[simp] theorem Operand.ofJson?_toJson (o : Operand) : ofJson? o.toJson = some o := by
  refine Json.read_record rfl (by decide) ?_
  simp

@[simp] theorem Inst.ofJson?_toJson (i : Inst) : ofJson? i.toJson = some i := by
  refine Json.read_record rfl (by decide) ?_
  simp [Json.list?_ofList Operand.ofJson?_toJson]

@[simp] theorem Block.ofJson?_toJson (b : Block) : ofJson? b.toJson = some b := by
  refine Json.read_record rfl (by decide) ?_
  simp [Json.list?_ofList Inst.ofJson?_toJson, Json.list?_ofList BlockId.ofJson?_toJson]

@[simp] theorem Slot.ofJson?_toJson (s : Slot) : ofJson? s.toJson = some s := by
  refine Json.read_record rfl (by decide) ?_
  simp

@[simp] theorem RegisterFile.ofJson?_toJson (r : RegisterFile) : ofJson? (toJson r) = some r := by
  refine Json.read_record rfl (by decide) ?_
  simp

@[simp] theorem Code.ofJson?_toJson (c : Code) : ofJson? c.toJson = some c := by
  have htemps : Json.list? Json.uint32? (.arr [.int c.temps.gp.toNat, .int c.temps.fp.toNat]) =
      some [c.temps.gp, c.temps.fp] := by
    simp [Json.list?]
  refine Json.read_record rfl (by decide) ?_
  simp [htemps, Json.list?_ofList Block.ofJson?_toJson, Json.list?_ofList Slot.ofJson?_toJson]

/-- The JSON form of a unit, and of everything that a unit is made of, is read back as what was
written, and no two values have the same form. -/
theorem Json.forms_faithful :
    Faithful Code.toJson Code.ofJson? ∧ Faithful Block.toJson Block.ofJson? ∧
      Faithful Inst.toJson Inst.ofJson? ∧ Faithful Operand.toJson Operand.ofJson? ∧
      Faithful Arg.toJson Arg.ofJson? ∧ Faithful Temp.toJson Temp.ofJson? ∧
      Faithful Slot.toJson Slot.ofJson? ∧ Faithful RegisterFile.toJson RegisterFile.ofJson? ∧
      Faithful Bank.toJson Bank.ofJson? ∧ Faithful Role.toJson Role.ofJson? ∧
      Faithful Opcode.toJson Opcode.ofJson? :=
  ⟨faithful_of_read Code.ofJson?_toJson, faithful_of_read Block.ofJson?_toJson,
    faithful_of_read Inst.ofJson?_toJson, faithful_of_read Operand.ofJson?_toJson,
    faithful_of_read Arg.ofJson?_toJson, faithful_of_read Temp.ofJson?_toJson,
    faithful_of_read Slot.ofJson?_toJson, faithful_of_read RegisterFile.ofJson?_toJson,
    faithful_of_read Bank.ofJson?_toJson, faithful_of_read Role.ofJson?_toJson,
    faithful_of_read Opcode.ofJson?_toJson⟩

end MachineLiveness
