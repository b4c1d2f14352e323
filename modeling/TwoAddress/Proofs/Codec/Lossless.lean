/-
# `Proofs.Codec.Lossless` — values of JSON are read as what they were written for

Registers, addresses, operands, instructions, lowered code and descriptors are
each written as a value of JSON that is read as the very same thing. Nothing is
lost on the way that other forms lose: an opcode keeps its tier, for the kind of
the instruction stands beside it, an address without base keeps an index of scale
one, and no number is out of the range in which it is read. The origin of an
instruction is a number without bound, and so it has to be within 64 bits.

A record is written with each of its names once, and that is all that its reader
asks for (`fields?_obj`).
-/
import Mathlib.Data.List.Nodup
import TwoAddress.Codec.Block
import TwoAddress.Codec.Descriptor

namespace TwoAddress

/-! ## Lists, options and records -/

namespace Json

variable {α β γ : Type} {read? : Json → Option α} {write : α → Json}

theorem mapM_map_eq_some {f : β → α} {g : α → Option γ} {h : β → γ} {items : List β}
    (hg : ∀ b ∈ items, g (f b) = some (h b)) : (items.map f).mapM g = some (items.map h) := by
  induction items with
  | nil => rfl
  | cons b rest ih =>
      obtain ⟨hb, hrest⟩ := List.forall_mem_cons.mp hg
      rw [List.map_cons, List.mapM_cons, hb, ih hrest]
      rfl

theorem list?_map {items : List α} (h : ∀ a ∈ items, read? (write a) = some a) :
    list? read? (.arr (items.map write)) = some items := by
  have hall := mapM_map_eq_some (f := write) (g := read?) (h := id) h
  rwa [List.map_id] at hall

/-- What is missing is told from what is there, as long as nothing else is written
as null. -/
theorem nullable?_ofOption {o : Option α} (hnull : ∀ a, write a ≠ .null)
    (h : ∀ a ∈ o, read? (write a) = some a) :
    nullable? read? (ofOption write o) = some o := by
  cases o with
  | none => rfl
  | some a =>
      have ha : read? (write a) = some a := h a rfl
      unfold nullable?
      split
      case h_1 hn => exact absurd hn (hnull a)
      case h_2 => exact congrArg (Option.map some) ha

/-- Among members of different names each is the only one of its name. -/
theorem member?_of_mem {members : List (String × Json)} {m : String × Json}
    (hnodup : (members.map (·.1)).Nodup) (hm : m ∈ members) :
    member? members m.1 = some (some m.2) := by
  -- `member?` refuses a name that stands twice
  have honly : members.filter (·.1 == m.1) = [m] := by
    induction members with
    | nil => exact nomatch hm
    | cons x rest ih =>
        obtain ⟨hx, hrest⟩ := List.nodup_cons.mp hnodup
        rcases List.mem_cons.mp hm with rfl | hmem
        · have hnone : rest.filter (·.1 == m.1) = [] := by
            refine List.filter_eq_nil_iff.mpr ?_
            intro y hy heq
            exact hx (List.mem_map.mpr ⟨y, hy, by simpa using heq⟩)
          rw [List.filter_cons_of_pos (by simp), hnone]
        · have hne : x.1 ≠ m.1 := fun heq => hx (List.mem_map.mpr ⟨m, hmem, heq.symm⟩)
          rw [List.filter_cons_of_neg (by simpa using hne)]
          exact ih hrest hmem
  rw [member?, honly]

theorem given?_some (read? : Json → Option α) (j : Json) : given? read? (some j) = read? j := rfl

theorem fields?_obj {members : List (String × Json)} (hnodup : (members.map (·.1)).Nodup) :
    fields? (members.map (·.1)) (.obj members) = some (members.map fun m => some m.2) :=
  mapM_map_eq_some fun _ hm => member?_of_mem hnodup hm

theorem uint8?_toNat (b : UInt8) : Json.uint8? (.int b.toNat) = some b := by
  rw [Json.uint8?, int?, Option.bind_some, TwoAddress.uint8?_toNat]

theorem int32?_toInt (w : Int32) : Json.int32? (.int w.toInt) = some w := by
  rw [Json.int32?, int?, Option.bind_some, TwoAddress.int32?_toInt]

theorem int64?_toInt (w : Int64) : Json.int64? (.int w.toInt) = some w := by
  rw [Json.int64?, int?, Option.bind_some, TwoAddress.int64?_toInt]

theorem word64?_natCast {n : Nat} (h : n < UInt64.size) : word64? (.int n) = some n := by
  have hsize : UInt64.size = 0x10000000000000000 := rfl
  have hbound : (0 : Int) ≤ n ∧ (n : Int) < 0x10000000000000000 :=
    ⟨Int.natCast_nonneg n, by omega⟩
  simp only [word64?, int?, if_pos hbound, Int.toNat_natCast]

end Json

open Json

/-! ## Instructions -/

theorem Reg.ofJson?_toJson (r : Reg) : Reg.ofJson? r.toJson = some r := by
  rw [Reg.ofJson?, Reg.toJson, Json.uint8?_toNat, Option.map_some]

theorem Opcode.ofJson?_toJson {tier : Tier} (op : Opcode tier) :
    Opcode.ofJson? op.toJson = some op := by
  rw [Opcode.ofJson?, Opcode.toJson, Json.uint8?_toNat, Option.map_some]

theorem ScaledReg.ofJson?_toJson (x : ScaledReg) : ScaledReg.ofJson? x.toJson = some x := by
  rw [ScaledReg.toJson, ScaledReg.ofJson?, Reg.ofJson?_toJson, Json.uint8?_toNat]
  rfl

theorem Address.ofJson?_toJson (a : Address) : Address.ofJson? a.toJson = some a := by
  have hbase : nullable? Reg.ofJson? (ofOption Reg.toJson a.base) = some a.base :=
    nullable?_ofOption (fun _ h => nomatch h) fun r _ => r.ofJson?_toJson
  have hindex : nullable? ScaledReg.ofJson? (ofOption ScaledReg.toJson a.index) = some a.index :=
    nullable?_ofOption (fun _ h => nomatch h) fun x _ => x.ofJson?_toJson
  have hfields : fields? ["base", "index", "disp"] a.toJson = _ := fields?_obj (by simp)
  simp only [Address.ofJson?, hfields, List.map_cons, List.map_nil, optional?, given?,
    Option.bind_some, hbase, hindex, Json.int32?_toInt]
  rfl

theorem Operand.ofJson?_toJson (o : Operand) : Operand.ofJson? o.toJson = some o := by
  cases o with
  | reg r =>
      have hread : Operand.ofJson? (reg r).toJson = (Reg.ofJson? r.toJson).map Operand.reg := by
        rw [Operand.toJson]
        rfl
      rw [hread, Reg.ofJson?_toJson, Option.map_some]
  | mem a =>
      have hread : Operand.ofJson? (mem a).toJson = (Address.ofJson? a.toJson).map Operand.mem := by
        rw [Operand.toJson]
        rfl
      rw [hread, Address.ofJson?_toJson, Option.map_some]
  | imm v =>
      have hread : Operand.ofJson? (imm v).toJson =
          (Json.int64? (.int v.toInt)).map Operand.imm := by
        rw [Operand.toJson]
        rfl
      rw [hread, Json.int64?_toInt, Option.map_some]

namespace Instruction

theorem find?_shape (tier : Tier) :
    Tier.all.find? (fun other => (shape other).1 == (shape tier).1) = some tier := by
  cases tier <;> rfl

theorem nodup_shape (tier : Tier) : ("op" :: (shape tier).2).Nodup := by
  cases tier <;> decide

theorem length_shape (tier : Tier) : (shape tier).2.length = tier.arity := by
  cases tier <;> rfl

theorem ofJson?_toJson (ins : Instruction) : ofJson? ins.toJson = some ins := by
  obtain ⟨members, hmembers⟩ : ∃ members, members = ("op", ins.opcode.toJson) ::
      (shape ins.tier).2.zip (ins.operands.map Operand.toJson) := ⟨_, rfl⟩
  have hlength : (shape ins.tier).2.length = (ins.operands.map Operand.toJson).length := by
    rw [length_shape, List.length_map, length_operands]
  have hnames : members.map (·.1) = "op" :: (shape ins.tier).2 := by
    rw [hmembers, List.map_cons]
    exact congrArg _ (List.map_fst_zip (Nat.le_of_eq hlength))
  have hvalues : members.map (fun m => some m.2) =
      some ins.opcode.toJson :: ins.operands.map fun o => some o.toJson := by
    have hsnd := List.map_snd_zip (Nat.le_of_eq hlength.symm)
    have htwice (ms : List (String × Json)) :
        ms.map (fun m => some m.2) = (ms.map Prod.snd).map some := (List.map_map).symm
    rw [hmembers, List.map_cons, htwice, hsnd, List.map_map]
    rfl
  have hfields : fields? ("op" :: (shape ins.tier).2) (.obj members) =
      some (some ins.opcode.toJson :: ins.operands.map fun o => some o.toJson) := by
    rw [← hnames, ← hvalues]
    exact fields?_obj (hnames ▸ nodup_shape ins.tier)
  have hoperands : (ins.operands.map fun o => some o.toJson).mapM (given? Operand.ofJson?) =
      some ins.operands := by
    have heach : ∀ o ∈ ins.operands, given? Operand.ofJson? (some o.toJson) = some (id o) :=
      fun o _ => o.ofJson?_toJson
    have hall := mapM_map_eq_some (f := fun o : Operand => some o.toJson) heach
    rwa [List.map_id] at hall
  have hkind : variant? ins.toJson = some ((shape ins.tier).1, .obj members) := by
    rw [hmembers]
    rfl
  rw [ofJson?, hkind, Option.bind_eq_bind, Option.bind_some]
  simp only [find?_shape, Option.bind_eq_bind, Option.bind_some, ofFields?, hfields, given?,
    Opcode.ofJson?_toJson]
  rw [hoperands, Option.bind_some, ofOperands?_operands]

end Instruction

/-! ## Lowered code -/

theorem Lowered.ofJson?_toJson {x : Lowered} (h : x.origin < UInt64.size) :
    Lowered.ofJson? x.toJson = some x := by
  have hfields : fields? ["instruction", "flag_preserving", "origin"] x.toJson =
      some [some x.instruction.toJson, some (.bool x.flagPreserving), some (.int x.origin)] :=
    fields?_obj (by simp)
  have hread : Lowered.ofJson? x.toJson = (do
      return ⟨← given? Instruction.ofJson? (some x.instruction.toJson),
        ← given? bool? (some (.bool x.flagPreserving)),
        ← given? word64? (some (.int x.origin))⟩) := by
    rw [Lowered.ofJson?, hfields]
  rw [hread, given?_some, given?_some, given?_some, Instruction.ofJson?_toJson, bool?,
    word64?_natCast h]
  rfl

namespace LoweredBlock

theorem ofJson?_toJson {b : LoweredBlock} (h : ∀ x ∈ b.items, x.origin < UInt64.size) :
    ofJson? b.toJson = some b := by
  have hfields : fields? ["instructions"] b.toJson = _ := fields?_obj (by simp)
  have hitems : list? Lowered.ofJson? (.arr (b.items.map Lowered.toJson)) = some b.items :=
    list?_map fun x hx => Lowered.ofJson?_toJson (h x hx)
  simp only [ofJson?, hfields, List.map_cons, List.map_nil, given?, Option.bind_some, hitems,
    Option.map_some]

theorem toJson_ne_null (b : LoweredBlock) : b.toJson ≠ .null :=
  fun h => nomatch h

theorem allOfJson?_allToJson {blocks : List (Option LoweredBlock)}
    (h : ∀ b, some b ∈ blocks → ∀ x ∈ b.items, x.origin < UInt64.size) :
    allOfJson? (allToJson blocks) = some blocks := by
  refine list?_map ?_
  intro o ho
  refine nullable?_ofOption toJson_ne_null ?_
  rintro b rfl
  exact ofJson?_toJson (h b ho)

end LoweredBlock

/-! ## Descriptors -/

theorem AddressingMode.ofJson?_toJson (mode : AddressingMode) :
    AddressingMode.ofJson? mode.toJson = some mode := by
  have hfields : fields? ["max_fields", "scales"] mode.toJson = _ := fields?_obj (by simp)
  have hscales : list? Json.uint8? (.arr (mode.scales.map fun s => .int s.toNat)) =
      some mode.scales := list?_map fun s _ => Json.uint8?_toNat s
  simp only [AddressingMode.ofJson?, hfields, List.map_cons, List.map_nil, given?,
    Option.bind_some, hscales, Json.uint8?_toNat]
  rfl

theorem Descriptor.ofJson?_toJson (d : Descriptor) : Descriptor.ofJson? d.toJson = some d := by
  have hfields : fields? ["name", "addressing", "lea_fusion", "scratch", "memory_to_memory",
      "max_block_len"] d.toJson =
      some [some (.str d.name), some (ofOption AddressingMode.toJson d.addressing),
        some (.bool d.leaFusion), some (ofOption Reg.toJson d.scratch),
        some (.bool d.memoryToMemory), some (.int d.maxBlockLen.toNat)] :=
    fields?_obj (by simp)
  have haddressing : nullable? AddressingMode.ofJson?
      (ofOption AddressingMode.toJson d.addressing) = some d.addressing :=
    nullable?_ofOption (fun _ h => nomatch h) fun mode _ => mode.ofJson?_toJson
  have hscratch : nullable? Reg.ofJson? (ofOption Reg.toJson d.scratch) = some d.scratch :=
    nullable?_ofOption (fun _ h => nomatch h) fun r _ => r.ofJson?_toJson
  have hlen : word64? (.int d.maxBlockLen.toNat) = some d.maxBlockLen.toNat :=
    word64?_natCast d.maxBlockLen.toNat_lt_size
  have hread : Descriptor.ofJson? d.toJson = (do
      return {
        name := ← given? string? (some (.str d.name))
        addressing := ← optional? AddressingMode.ofJson?
          (some (ofOption AddressingMode.toJson d.addressing))
        leaFusion := ← given? bool? (some (.bool d.leaFusion))
        scratch := ← optional? Reg.ofJson? (some (ofOption Reg.toJson d.scratch))
        memoryToMemory := ← given? bool? (some (.bool d.memoryToMemory))
        maxBlockLen := UInt64.ofNat
          (← given? word64? (some (.int d.maxBlockLen.toNat))) }) := by
    rw [Descriptor.ofJson?, hfields]
  rw [hread, optional?, optional?, haddressing, hscratch, given?_some, given?_some, given?_some,
    given?_some, hlen, string?, bool?, bool?]
  show some { d with maxBlockLen := UInt64.ofNat d.maxBlockLen.toNat } = some d
  rw [UInt64.ofNat_toNat]

end TwoAddress
