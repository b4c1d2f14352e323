/-
# `Proofs.Lowering.FixedPoint` — lowering lowered code

Every emitted instruction is one that the target takes, so on a second pass each
is lowered to itself. What is left to see is that the chains hold. They are not
the chains of the first pass: an `ADD` that came from an `ADD3` is a link now,
and whether a carry is needed is found out on another stream of instructions.

But what reads a carry in the stream is the one instruction of something that
read a carry in the block (`link_of_emitted`), and that one had its carry
supplied. The link that left it is the last instruction of its group, and what
stands between leaves the carry alone, so it holds no links (`supplied_of_split`).
-/
import TwoAddress.Proofs.Lowering.Capability

namespace TwoAddress

/-! ## What is emitted on behalf of an instruction -/

/-- The two-operand operation that computes what the instruction computes. -/
def Instruction.operation? : Instruction → Option (Opcode .binary)
  | binary op _ _ => some op
  | ternary op _ _ _ => op.ternaryToBinary?
  | quaternary op _ _ _ _ => op.quaternaryToBinary?
  | _ => none

/-- The operations that lowering puts in of its own accord. -/
inductive Opcode.Auxiliary : Opcode .binary → Prop
  | mov : Auxiliary .mov
  | lea : Auxiliary .lea
  | add : Auxiliary .add

namespace Target

open Carry

variable {t : Target} {ins g : Instruction} {group : List Instruction}
  {op op' : Opcode .binary} {d s dst src a b : Operand} {plan : Plan}

theorem opcode_of_operation (h : t.operation ins op dst src = .ok group)
    (hg : .binary op' d s ∈ group) : op' = op ∨ op' = .mov := by
  rcases operation_eq_ok_iff.mp h with ⟨_, rfl⟩ | ⟨_, _, _, r, _, _, rfl⟩
  · cases List.mem_singleton.mp hg
    exact .inl rfl
  · rcases List.mem_cons.mp hg with hg | hg
    · cases hg
      exact .inr rfl
    · cases List.mem_singleton.mp hg
      exact .inl rfl

/-- Beside the operation itself, the code for `dst := a op b` copies and adds; and
it computes an address if that is the plan. -/
theorem opcode_of_justified (hj : Plan.Justified t op dst a b plan)
    (h : t.emit ins plan = .ok group) (hg : .binary op' d s ∈ group) :
    op' = op ∨ op' = .mov ∨ op' = .add ∨ op' = .lea ∧ ∃ r sum, plan = .fuse r sum := by
  cases hj with
  | reuse _ => exact (opcode_of_operation h hg).imp_right .inl
  | commute _ _ _ => exact (opcode_of_operation h hg).imp_right .inl
  | fuse _ _ =>
      cases h
      cases List.mem_singleton.mp hg
      exact .inr (.inr (.inr ⟨rfl, _, _, rfl⟩))
  | negateAdd _ _ _ =>
      obtain ⟨rest, hrest, hgroup⟩ := bind_eq_ok_iff.mp h
      cases hgroup
      rcases List.mem_cons.mp hg with hg | hg
      · exact nomatch hg
      · rcases opcode_of_operation hrest hg with hadd | hmov
        · exact .inr (.inr (.inl hadd))
        · exact .inr (.inl hmov)
  | commuteMove _ _ _ =>
      cases h
      rcases List.mem_cons.mp hg with hg | hg
      · cases hg
        exact .inr (.inl rfl)
      · cases List.mem_singleton.mp hg
        exact .inl rfl
  | moveOperate _ _ =>
      cases h
      rcases List.mem_cons.mp hg with hg | hg
      · cases hg
        exact .inr (.inl rfl)
      · cases List.mem_singleton.mp hg
        exact .inl rfl
  | viaScratch _ =>
      obtain ⟨r, _, hgroup⟩ := bind_eq_ok_iff.mp h
      cases hgroup
      rcases List.mem_cons.mp hg with hg | hg
      · cases hg
        exact .inr (.inl rfl)
      · rcases List.mem_cons.mp hg with hg | hg
        · cases hg
          exact .inl rfl
        · cases List.mem_singleton.mp hg
          exact .inr (.inl rfl)

/-- An emitted operation of two operands is the one that the instruction stands
for, or one that lowering put in. -/
theorem opcode_of_emitted (h : t.lower ins = .ok group) (hg : .binary op' d s ∈ group) :
    ins.operation? = some op' ∨ op'.Auxiliary := by
  cases ins with
  | nullary op =>
      obtain rfl := lower_nullary h
      exact nomatch List.mem_singleton.mp hg
  | unary op dst =>
      obtain ⟨_, rfl⟩ := lower_unary h
      exact nomatch List.mem_singleton.mp hg
  | binary op dst src =>
      obtain ⟨_, hgroup⟩ := lower_binary h
      cases hgroup with
      | address _ _ _ _ _ =>
          cases List.mem_singleton.mp hg
          exact .inl rfl
      | inPlace _ _ => exact nomatch List.mem_singleton.mp hg
      | copied _ hcopy =>
          rcases List.mem_append.mp hg with hg | hg
          · rcases opcode_of_operation hcopy hg with rfl | rfl
            · exact .inr .mov
            · exact .inr .mov
          · exact nomatch List.mem_singleton.mp hg
      | operated _ _ ho =>
          rcases opcode_of_operation ho hg with rfl | rfl
          · exact .inl rfl
          · exact .inr .mov
  | ternary op3 dst a b =>
      obtain ⟨op, plan, hop, _, hj, he⟩ := lower_ternary h
      rcases opcode_of_justified hj he hg with rfl | rfl | rfl | ⟨rfl, _⟩
      · exact .inl hop
      · exact .inr .mov
      · exact .inr .add
      · exact .inr .lea
  | quaternary op4 dst base index scale =>
      obtain ⟨_, _, _, _, _, _, _, _, _, _, _, _, rfl⟩ := lower_quaternary h
      cases List.mem_singleton.mp hg
      exact .inr .lea

theorem opcode_ne_auxiliary {l : Link} (h : op.Auxiliary) (hrole : l.role = .consume) :
    l.opcode ≠ op := by
  cases h with
  | mov => exact l.opcode_plain.2.1
  | lea => exact l.opcode_plain.1
  | add => exact (Link.opcode_of_consume hrole).1

/-- What reads a carry in emitted code was emitted for something that reads that
carry. -/
theorem link_of_emitted {l : Link} (h : t.lower ins = .ok group) (hg : g ∈ group)
    (hl : Link.of? g = some l) (hrole : l.role = .consume) : Link.of? ins = some l := by
  have hbinary : ∃ d s, g = .binary l.opcode d s := by
    cases takes_of_lower h g hg with
    | nullary _ => exact nomatch hl
    | unary _ _ => exact nomatch hl
    | address _ _ => exact absurd (Link.ofOpcode?_eq_some_iff.mp hl) l.opcode_plain.1
    | binary _ _ _ =>
        obtain rfl := Link.ofOpcode?_eq_some_iff.mp hl
        exact ⟨_, _, rfl⟩
  obtain ⟨d, s, rfl⟩ := hbinary
  rcases opcode_of_emitted h hg with hop | haux
  · cases ins with
    | nullary op => exact nomatch hop
    | unary op dst => exact nomatch hop
    | binary op dst src => exact (Option.some.inj hop) ▸ hl
    | ternary op3 dst a b =>
        have hop3 : op3.ternaryToBinary? = some l.opcode := hop
        have hof : Link.ofOpcode? l.opcode = some l := hl
        simp [Link.of?, hop3, hof, Link.consumes_iff.mpr hrole]
    | quaternary op4 dst base index scale =>
        obtain ⟨_, _, _, _, _, hlea, _⟩ := lower_quaternary h
        exact absurd (Option.some.inj (hop.symm.trans hlea)) l.opcode_plain.1
  · exact absurd rfl (opcode_ne_auxiliary haux hrole)

end Target

/-! ## Carries in a stream of instructions -/

namespace Carry

variable {t : Target} {block : List Instruction} {groups : List (List Instruction)}

theorem Link.of?_of_inert {g : Instruction} (h : g.Inert) : Link.of? g = none := by
  cases h with
  | nop => rfl
  | ret => rfl
  | lea dst src =>
      show Link.ofOpcode? .lea = none
      decide

theorem Link.of?_of_worksIn {l : Link} {w : Instruction} (h : l.worksIn w = true) :
    Link.of? w = some l := by
  cases w with
  | binary op dst src =>
      have hop : op = l.opcode := beq_iff_eq.mp h
      exact ofOpcode?_eq_some_iff.mpr hop.symm
  | nullary op => exact nomatch h
  | unary op dst => exact nomatch h
  | ternary op dst a b => exact nomatch h
  | quaternary op dst base index scale => exact nomatch h

/-- The worker of a link ends its group, except where a result is copied out of
the scratch register, which needs two copies. -/
theorem LinkGroup.ends {l : Link} {group : List Instruction} {w : Instruction}
    (h : LinkGroup l group w) (hone : l.role = .consume → ∃ w', group = [w']) :
    ∃ pre, group = pre ++ [w] ∧ Link.of? w = some l := by
  cases h with
  | alone hw => exact ⟨[], rfl, Link.of?_of_worksIn hw⟩
  | afterCopy hw => exact ⟨[_], rfl, Link.of?_of_worksIn hw⟩
  | betweenCopies hrole _ =>
      obtain ⟨_, hw'⟩ := hone hrole
      exact nomatch hw'

theorem mem_mid {pre mid post : List Instruction} {x y : Instruction} {k : Nat}
    (hpre : pre.length < k) (hmid : k < pre.length + 1 + mid.length)
    (hy : (pre ++ x :: (mid ++ post))[k]? = some y) : y ∈ mid := by
  rw [List.getElem?_append_right (Nat.le_of_lt hpre)] at hy
  obtain ⟨m, hm⟩ : ∃ m, k - pre.length = m + 1 := ⟨k - pre.length - 1, by omega⟩
  rw [hm, List.getElem?_cons_succ, List.getElem?_append_left (by omega)] at hy
  exact List.mem_of_getElem? hy

/-- In a stream in which each instruction is a group of its own, a link supplies
whatever comes after inert instructions. -/
theorem supplied_of_split {pre mid post : List Instruction} {x w : Instruction} {l : Link}
    (hx : Link.of? x = some l) (hmid : ∀ y ∈ mid, y.Inert) :
    let stream := pre ++ x :: (mid ++ w :: post)
    Supplied stream (stream.map ([·])) (pre.length + 1 + mid.length) l.family := by
  intro stream
  have hat : stream[pre.length]? = some x := by simp [stream]
  have hw : stream[pre.length + 1 + mid.length]? = some w := by
    simp only [stream]
    rw [List.getElem?_append_right (by omega)]
    have hm : pre.length + 1 + mid.length - pre.length = mid.length + 1 := by omega
    rw [hm, List.getElem?_cons_succ]
    simp
  have hbetween : ∀ k y, pre.length < k → k < pre.length + 1 + mid.length →
      stream[k]? = some y → y.Inert :=
    fun k y hpre hk hy => hmid y (mem_mid hpre hk hy)
  -- inert instructions are no links, so `x` is the nearest one before `w`
  refine ⟨⟨pre.length, l, ⟨by omega, ?_, ?_⟩, rfl, ?_⟩, w, ?_⟩
  · exact (linkAt_of_getElem? hat).trans hx
  · intro k hpre hk
    cases hy : stream[k]? with
    | none => simp [linkAt, hy]
    | some y => exact (linkAt_of_getElem? hy).trans (Link.of?_of_inert (hbetween k y hpre hk hy))
  · intro k hpre hk group hgroup
    rw [List.getElem?_map] at hgroup
    obtain ⟨y, hy, rfl⟩ := Option.map_eq_some_iff.mp hgroup
    exact List.forall_mem_singleton.mpr (hbetween k y hpre hk hy)
  · rw [List.getElem?_map, hw]
    rfl

/-! ## The stream of a block -/

theorem exists_split {α : Type} {xs : List α} {i : Nat} {x : α} (h : xs[i]? = some x) :
    ∃ pre post, xs = pre ++ x :: post ∧ pre.length = i := by
  obtain ⟨hi, rfl⟩ := List.getElem?_eq_some_iff.mp h
  refine ⟨xs.take i, xs.drop (i + 1), ?_, List.length_take_of_le (Nat.le_of_lt hi)⟩
  rw [← List.drop_eq_getElem_cons hi, List.take_append_drop]

theorem exists_group_of_stream {p : Nat} {g : Instruction} (h : groups.flatten[p]? = some g) :
    ∃ before group after xs ys, groups = before ++ group :: after ∧ group = xs ++ g :: ys ∧
      p = before.flatten.length + xs.length := by
  induction groups generalizing p with
  | nil => exact nomatch h
  | cons group rest ih =>
      rw [List.flatten_cons] at h
      rcases Nat.lt_or_ge p group.length with hp | hp
      · rw [List.getElem?_append_left hp] at h
        obtain ⟨xs, ys, hgroup, hxs⟩ := exists_split h
        exact ⟨[], group, rest, xs, ys, rfl, hgroup, by simp [hxs]⟩
      · rw [List.getElem?_append_right hp] at h
        obtain ⟨before, group', after, xs, ys, hrest, hgroup', hpos⟩ := ih h
        refine ⟨group :: before, group', after, xs, ys, by rw [hrest]; rfl, hgroup', ?_⟩
        rw [List.flatten_cons, List.length_append]
        omega

theorem inert_between {first mid rest : List (List Instruction)} {group : List Instruction}
    (h : ∀ k, first.length < k → k < (first ++ group :: mid).length →
      ∀ group', ((first ++ group :: mid) ++ rest)[k]? = some group' → ∀ g ∈ group', g.Inert) :
    ∀ y ∈ mid.flatten, y.Inert := by
  intro y hy
  obtain ⟨group', hmem, hy⟩ := List.mem_flatten.mp hy
  obtain ⟨m, hm⟩ := List.mem_iff_getElem?.mp hmem
  have hlt : m < mid.length := (List.getElem?_eq_some_iff.mp hm).1
  refine h (first.length + 1 + m) (by omega) (by simp; omega) group' ?_ y hy
  rw [List.append_assoc, List.getElem?_append_right (by omega)]
  have hidx : first.length + 1 + m - first.length = m + 1 := by omega
  rw [hidx, List.cons_append, List.getElem?_cons_succ, List.getElem?_append_left hlt, hm]

/-- If every carry that a block reads is supplied, so is every carry that the
stream of its groups reads. -/
theorem allSupplied_stream (hg : block.map t.lower = groups.map .ok)
    (hs : AllSupplied block groups) :
    AllSupplied groups.flatten (groups.flatten.map ([·])) := by
  intro p l hl hrole
  obtain ⟨w, hw, hof⟩ := linkAt_eq_some_iff.mp hl
  obtain ⟨before, group, after, xs, ys, hgroups, hgroup, hp⟩ := exists_group_of_stream hw
  -- the instruction that `w` was emitted for reads the carry, so `w` is all there is to it
  have hi : groups[before.length]? = some group := by simp [hgroups]
  obtain ⟨ins, hins, hlow⟩ := exists_origin hg hi
  have hmem : w ∈ group := by simp [hgroup]
  have hlink : linkAt block before.length = some l :=
    (linkAt_of_getElem? hins).trans (Target.link_of_emitted hlow hmem hof hrole)
  obtain ⟨⟨j, l', hn, hfam, hinert⟩, w', hw'⟩ := hs _ l hlink hrole
  have hone : xs ++ w :: ys = [w'] := hgroup.symm.trans (Option.some.inj (hi.symm.trans hw'))
  obtain ⟨rfl, hys⟩ : xs = [] ∧ ys = [] := by
    rcases List.append_eq_singleton_iff.mp hone with ⟨hxs, hys⟩ | ⟨_, hys⟩
    · exact ⟨hxs, (List.cons.inj hys).2⟩
    · exact nomatch hys
  -- the link that supplies it ends its group
  obtain ⟨groupj, w'', hat, hworks⟩ := exists_group_of_link hg hn.link
  have hj : groups[j]? = some groupj := (groupAt_eq_ok_iff hg).mp hat
  obtain ⟨pre, rfl, hx⟩ := hworks.ends fun hrole' => by
    obtain ⟨_, v, hv⟩ := hs j l' hn.link hrole'
    exact ⟨v, Option.some.inj (hj.symm.trans hv)⟩
  rw [hgroups, List.getElem?_append_left hn.before] at hj
  obtain ⟨first, mid, rfl, rfl⟩ := exists_split hj
  have hmid : ∀ y ∈ mid.flatten, y.Inert :=
    inert_between fun k hjk hki group' hk => hinert k hjk hki group' (by rwa [hgroups])
  have hstream : groups.flatten =
      (first.flatten ++ pre) ++ w'' :: (mid.flatten ++ w :: after.flatten) := by
    simp [hgroups, hgroup, hys]
  have hpos : p = (first.flatten ++ pre).length + 1 + mid.flatten.length := by
    rw [hp]
    simp
    omega
  rw [hstream, hpos, ← hfam]
  exact supplied_of_split hx hmid

end Carry

namespace Target

open Carry

theorem items_of_singles {items : List Lowered}
    (hflag : ∀ x ∈ items, x.flagPreserving = decide x.instruction.Inert) :
    (((items.map (·.instruction)).map ([·])).mapIdx Lowered.ofGroup).flatten =
      items.mapIdx fun i x => { x with origin := i } := by
  have hmap : ((items.map (·.instruction)).map ([·])).mapIdx Lowered.ofGroup =
      (items.mapIdx fun i x => { x with origin := i }).map ([·]) := by
    refine List.ext_getElem? ?_
    intro i
    rw [List.getElem?_mapIdx, List.getElem?_map, List.getElem?_map, List.getElem?_map,
      List.getElem?_mapIdx]
    cases hi : items[i]? with
    | none => rfl
    | some x =>
        have hx := hflag x (List.mem_of_getElem? hi)
        simp [Lowered.ofGroup, hx]
  rw [hmap]
  exact List.flatMap_singleton' _

/-- Lowered code is lowered to itself by every target that has the forms of the
first: the same instructions with the same marks, each now at its own place. -/
theorem lowerBlock_lowered (t t' : Target) (h : t.FormsWithin t') (block : List Instruction)
    (out : LoweredBlock) (hout : t.lowerBlock block = .ok out)
    (hfits : out.length ≤ t'.maxBlockLen.toNat) :
    t'.lowerBlock out.instructions =
      .ok ⟨out.items.mapIdx fun i x => { x with origin := i }⟩ := by
  obtain ⟨_, hclean, groups, hgroups, rfl⟩ := clean_of_lowerBlock hout
  have hs := allSupplied_stream hgroups (supplied_of_clean hgroups hclean)
  have htakes : ∀ g ∈ groups.flatten, t'.Takes g := by
    intro g hg
    obtain ⟨group, hgroup, hg⟩ := List.mem_flatten.mp hg
    obtain ⟨i, hi⟩ := List.mem_iff_getElem?.mp hgroup
    obtain ⟨ins, _, hlow⟩ := exists_origin hgroups hi
    exact h.takes (takes_of_lower hlow g hg)
  have hsingles : groups.flatten.map t'.lower = (groups.flatten.map ([·])).map .ok := by
    rw [List.map_map]
    exact List.map_congr_left fun g hg => lower_of_takes (htakes g hg)
  have hlen : groups.flatten.length ≤ t'.maxBlockLen.toNat := by
    rw [← instructions_of_groups, LoweredBlock.instructions, List.length_map]
    exact hfits
  have hflag : ∀ x ∈ (groups.mapIdx Lowered.ofGroup).flatten,
      x.flagPreserving = decide x.instruction.Inert := by
    intro x hx
    obtain ⟨_, _, _, hflag⟩ := mem_items_iff.mp hx
    exact hflag
  rw [instructions_of_groups, lowerBlock_of_supplied hlen hsingles hs,
    ← instructions_of_groups, LoweredBlock.instructions, items_of_singles hflag]

/-- On a machine that computes no addresses a sum before a chain becomes an
`ADD`, which is a link when the code is lowered again. -/
theorem lowerBlock_lowered_sum_before_chain :
    let block : List Instruction :=
      [.ternary .add3 (.reg ⟨6⟩) (.reg ⟨7⟩) (.reg ⟨8⟩), .binary .add (.reg ⟨0⟩) (.reg ⟨3⟩),
        .nullary .nop, .ternary .adc3 (.reg ⟨1⟩) (.reg ⟨1⟩) (.reg ⟨4⟩)]
    let out : LoweredBlock :=
      ⟨[⟨.binary .mov (.reg ⟨6⟩) (.reg ⟨7⟩), false, 0⟩,
        ⟨.binary .add (.reg ⟨6⟩) (.reg ⟨8⟩), false, 0⟩,
        ⟨.binary .add (.reg ⟨0⟩) (.reg ⟨3⟩), false, 1⟩,
        ⟨.nullary .nop, true, 2⟩,
        ⟨.binary .adc (.reg ⟨1⟩) (.reg ⟨4⟩), false, 3⟩]⟩
    minimal.FormsWithin minimal ∧ minimal.lowerBlock block = .ok out ∧
      out.length ≤ minimal.maxBlockLen.toNat ∧
      minimal.lowerBlock out.instructions =
        .ok ⟨out.items.mapIdx fun i x => { x with origin := i }⟩ := by
  intro block out
  have hout : minimal.lowerBlock block = .ok out := rfl
  have hfits : out.length ≤ minimal.maxBlockLen.toNat := by decide
  exact ⟨.refl minimal, hout, hfits,
    lowerBlock_lowered minimal minimal (.refl minimal) block out hout hfits⟩

end Target

end TwoAddress
