import Mathlib
import DramBender.ControlFlow
/-!
# Listings

The listing of a sequence of calls is what `decode_inst` prints for its words.
For calls without labels and branches, and for a single loop made of such
calls, the linked words are read off the listings of the parts.
-/

namespace DRAMBender

open Std (ExtTreeMap)
open Insert Machine

namespace Program

/-- The queue behind a sequence of calls. -/
def queue_after (ms : List Mininst) (cs : List Call) : List Mininst := cs.foldl call_queue ms

theorem words_append (ms : List Mininst) (cs ds : List Call) :
    words ms (cs ++ ds) = words ms cs ++ words (queue_after ms cs) ds := by
  induction cs generalizing ms with
  | nil => rfl
  | cons c cs ih => rw [List.cons_append, words, ih, words, List.append_assoc]; rfl

theorem queue_after_append (ms : List Mininst) (cs ds : List Call) :
    queue_after ms (cs ++ ds) = queue_after (queue_after ms cs) ds := List.foldl_append

theorem build_minprogram (cs : List Call) : (build cs).minprogram = queue_after [] cs := by
  have h : ∀ (cs : List Call) (p : Program), (cs.foldl call p).minprogram = queue_after p.minprogram cs := by
    intro cs
    induction cs with
    | nil => exact fun _ => rfl
    | cons c cs ih => exact fun p => by rw [List.foldl_cons, ih, call_minprogram]; rfl
  exact h cs {}

/-- What a decoded word brings into a program: a load has its NOPs behind it. -/
def printed (m : Mnemonic) : List Mnemonic := m :: if m.isLoad then [decode_inst all_nops] else []

theorem map_decode_emitted (w : Inst) : (emitted w).map decode_inst = printed (decode_inst w) := by
  rw [emitted, printed, decode_isLoad]
  split_ifs <;> rfl

/-- A part of a program that adds no label and no branch, and leaves nothing in
the queue. -/
structure Block (cs : List Call) : Prop where
  made : ∀ c ∈ cs, c.WellMade
  label : ∀ name, Call.add_label name ∉ cs
  branch : ∀ bt rs1 rs2 tgt, Call.add_branch bt rs1 rs2 tgt ∉ cs
  queue : queue_after [] cs = []

/-- What `decode_inst` prints for the words of the calls. -/
def listing (cs : List Call) : List Mnemonic := (words [] cs).map decode_inst

theorem Block.nil : Block [] := ⟨by simp, by simp, by simp, rfl⟩

theorem Block.append {cs ds : List Call} (h : Block cs) (h' : Block ds) : Block (cs ++ ds) := by
  refine ⟨fun c hc => ?_, fun name hn => ?_, fun bt rs1 rs2 tgt hb => ?_, ?_⟩
  · exact (List.mem_append.1 hc).elim (h.made c) (h'.made c)
  · exact (List.mem_append.1 hn).elim (h.label name) (h'.label name)
  · exact (List.mem_append.1 hb).elim (h.branch bt rs1 rs2 tgt) (h'.branch bt rs1 rs2 tgt)
  · rw [queue_after_append, h.queue, h'.queue]

theorem Block.flatMap {ι : Type} {l : List ι} {f : ι → List Call} (h : ∀ x ∈ l, Block (f x)) : Block (l.flatMap f) := by
  induction l with
  | nil => exact .nil
  | cons x l ih =>
    rw [List.flatMap_cons]
    exact (h x (by simp)).append (ih fun y hy => h y (by simp [hy]))

theorem listing_append {cs ds : List Call} (h : Block cs) : listing (cs ++ ds) = listing cs ++ listing ds := by
  rw [listing, words_append, h.queue, List.map_append]
  rfl

theorem listing_flatMap {ι : Type} {l : List ι} {f : ι → List Call} (h : ∀ x ∈ l, Block (f x)) :
    listing (l.flatMap f) = l.flatMap fun x => listing (f x) := by
  induction l with
  | nil => rfl
  | cons x l ih =>
    rw [List.flatMap_cons, listing_append (h x (by simp)), ih fun y hy => h y (by simp [hy]), List.flatMap_cons]

/-! ## Single calls -/

/-- A call that adds words at once. -/
structure Piece (c : Call) : Prop where
  made : c.WellMade
  label : ∀ name, c ≠ .add_label name
  branch : ∀ bt rs1 rs2 tgt, c ≠ .add_branch bt rs1 rs2 tgt
  queue : ∀ ms, call_queue ms c = ms

theorem Piece.block {c : Call} (h : Piece c) : Block [c] := by
  refine ⟨?_, ?_, ?_, h.queue []⟩
  · simpa using h.made
  · simpa using fun name => (h.label name).symm
  · simpa using fun bt rs1 rs2 tgt => (h.branch bt rs1 rs2 tgt).symm

theorem Block.cons {c : Call} {cs : List Call} (h : Piece c) (h' : Block cs) : Block (c :: cs) := h.block.append h'

theorem listing_cons {c : Call} {cs : List Call} (h : Piece c) : listing (c :: cs) = listing [c] ++ listing cs :=
  listing_append h.block

theorem piece_inst (a : Asm) (h : a.isBranch = false) : Piece (.add_inst a.encode) :=
  ⟨⟨a, h, rfl⟩, by simp, by simp, fun _ => rfl⟩

theorem piece_inst4 (i1 i2 i3 i4 : Mini) : Piece (.add_inst4 i1.encode i2.encode i3.encode i4.encode) :=
  ⟨⟨i1, i2, i3, i4, rfl, rfl, rfl, rfl⟩, by simp, by simp, fun _ => rfl⟩

theorem listing_inst (w : Inst) : listing [.add_inst w] = printed (decode_inst w) := by
  rw [← map_decode_emitted, listing, words, words, List.append_nil]
  rfl

theorem listing_inst4 (i1 i2 i3 i4 : Mini) : listing [.add_inst4 i1.encode i2.encode i3.encode i4.encode] =
    [.DDR (decode_ddr i1.encode) (decode_ddr i2.encode) (decode_ddr i3.encode) (decode_ddr i4.encode)] := by
  rw [listing, words, words, List.append_nil]
  exact congrArg (· :: []) (decode_pack _ _ _ _ i4.encode_msb)

/-- Calls that fill the queue. -/
def fills : Call → Prop
  | .add_mininst mi _ => ∃ m : Mini, mi = m.encode
  | .add_wait _ => True
  | _ => False

theorem fills_made {cs : List Call} (h : ∀ c ∈ cs, fills c) : ∀ c ∈ cs, c.WellMade := by
  intro c hc
  have hf := h c hc
  cases c with
  | add_mininst mi wait_after => exact hf
  | add_wait wait_cycles => trivial
  | _ => exact hf.elim

theorem fills_queue {cs : List Call} (h : ∀ c ∈ cs, fills c) : ∀ m ∈ queue_after [] cs, m.getLsbD 15 = true := by
  rw [← build_minprogram]
  exact (plain_build (fills_made h)).queue

theorem block_pack {cs : List Call} (h : ∀ c ∈ cs, fills c) : Block (cs ++ [.pack_minprogram]) := by
  refine ⟨fun c hc => ?_, fun name hn => ?_, fun bt rs1 rs2 tgt hb => ?_, ?_⟩
  · rcases List.mem_append.1 hc with hc | hc
    · exact fills_made h c hc
    · rw [List.mem_singleton.1 hc]
      trivial
  · rcases List.mem_append.1 hn with hc | hc
    · exact h _ hc
    · simp at hc
  · rcases List.mem_append.1 hb with hc | hc
    · exact h _ hc
    · simp at hc
  · rw [queue_after_append]
    rfl

theorem listing_pack {cs : List Call} (h : ∀ c ∈ cs, fills c) :
    listing (cs ++ [.pack_minprogram]) = (packed (queue_after [] cs)).map decode_inst := by
  have hw : ∀ (cs : List Call), (∀ c ∈ cs, fills c) → ∀ ms, words ms cs = [] := by
    intro cs
    induction cs with
    | nil => exact fun _ _ => rfl
    | cons c cs ih =>
      intro hf ms
      have hc := hf c (by simp)
      rw [words, ih fun d hd => hf d (by simp [hd])]
      cases c with
      | add_mininst mi wait_after => rfl
      | add_wait wait_cycles => rfl
      | _ => exact hc.elim
  rw [listing, words_append, hw cs h, List.nil_append, words, words, List.append_nil]
  rfl

/-! ## Linked words -/

theorem decode_link_BL {rs1 rs2 : CInt} (h1 : rs1 < 16) (h2 : rs2 < 16) {t : Nat} (ht : t < 524288) :
    decode_inst (link (place_holder .BL rs1 rs2) t) =
      .BL (BitVec.ofNat 19 t) (rs1.setWidth 4) (rs2.setWidth 4) := by
  rw [link_place_holder h1 h2]
  obtain ⟨p, rfl⟩ := exists_reg h1
  obtain ⟨q, rfl⟩ := exists_reg h2
  have e : (BitVec.ofNat 32 t : CInt) = (BitVec.ofNat 19 t).setWidth 32 := by
    apply BitVec.eq_of_toNat_eq
    simp
    omega
  rw [branch_word, e, SMC_BL_br, decode_br_BL]
  simp

/-- Without `add_branch` no branch is recorded. -/
theorem Block.branches {cs : List Call} (h : Block cs) (p : Program) : (cs.foldl call p).branches = p.branches := by
  have hcall : ∀ c, (∀ bt rs1 rs2 tgt, c ≠ .add_branch bt rs1 rs2 tgt) → ∀ p : Program, (p.call c).branches = p.branches := by
    intro c hc p
    cases c with
    | add_inst i => rw [call, add_inst_eq]; rfl
    | add_branch bt rs1 rs2 tgt => exact absurd rfl (hc bt rs1 rs2 tgt)
    | pack_minprogram => rw [call, pack_minprogram, pack_loop_eq]; rfl
    | _ => rfl
  have hall := h.branch
  clear h
  induction cs generalizing p with
  | nil => rfl
  | cons c cs ih =>
    rw [List.foldl_cons, ih _ fun bt rs1 rs2 tgt hb => hall bt rs1 rs2 tgt (by simp [hb])]
    exact hcall c (fun bt rs1 rs2 tgt e => hall bt rs1 rs2 tgt (by simp [e])) p

theorem Block.branch_none {cs : List Call} (h : Block cs) (i : Nat) : (build cs).branches[i]? = none := by
  rw [build, h.branches]
  exact ExtTreeMap.getElem?_empty

theorem Block.not_branch {cs : List Call} (h : Block cs) : ∀ m ∈ listing cs, m.isBranch = false := by
  intro m hm
  obtain ⟨w, hw, rfl⟩ := List.mem_map.1 hm
  obtain ⟨i, hi⟩ := List.mem_iff_getElem?.1 hw
  rw [← build_program] at hi
  exact (plain_build h.made).word i w hi (h.branch_none i)

/-- Nor is the END behind them. -/
theorem Block.not_branch_ended {cs : List Call} (h : Block cs) : ∀ m ∈ listing cs ++ [Mnemonic.END], m.isBranch = false := by
  intro m hm
  rcases List.mem_append.1 hm with hm | hm
  · exact h.not_branch m hm
  · rw [List.mem_singleton.1 hm]
    rfl

/-- In a loop only its own branch is one. -/
theorem not_branch_loop {pre body post : List Call} (hpre : Block pre) (hbody : Block body) (hpost : Block post) {m : Mnemonic}
    (hm : m ∈ listing pre ∨ m ∈ listing body ∨ m ∈ listing post ++ [Mnemonic.END]) : m.isBranch = false := by
  rcases hm with hm | hm | hm
  · exact hpre.not_branch m hm
  · exact hbody.not_branch m hm
  · exact hpost.not_branch_ended m hm

theorem Block.labelled {cs : List Call} (h : Block cs) : Labelled cs :=
  fun bt rs1 rs2 tgt hb => absurd hb (h.branch bt rs1 rs2 tgt)

theorem linked_block {cs : List Call} (h : Block cs) : (linked cs).map decode_inst = listing cs ++ [.END] := by
  have hl : linked cs = words [] cs ++ [SMC_END] := by
    apply List.ext_getElem?
    intro i
    rw [linked, List.getElem?_mapIdx, build_program, h.branch_none]
    exact Option.map_id'
  rw [hl, List.map_append, listing]
  rfl

/-- A positionwise map that differs in one place. -/
theorem mapIdx_single {α β : Type} {f : Nat → α → β} {g : α → β} (xs ys : List α) (x : α)
    (hf : ∀ i y, i ≠ xs.length → f i y = g y) : (xs ++ x :: ys).mapIdx f = xs.map g ++ f xs.length x :: ys.map g := by
  apply List.ext_getElem?
  intro i
  rw [List.getElem?_mapIdx]
  rcases Nat.lt_trichotomy i xs.length with hi | rfl | hi
  · rw [List.getElem?_append_left hi, List.getElem?_append_left (by rwa [List.length_map]), List.getElem?_map]
    cases xs[i]? with
    | none => rfl
    | some y => exact congrArg some (hf i y (by omega))
  · rw [List.getElem?_append_right le_rfl, List.getElem?_append_right (by rw [List.length_map]), List.length_map, Nat.sub_self]
    rfl
  · obtain ⟨k, hk⟩ : ∃ k, i - xs.length = k + 1 := ⟨i - xs.length - 1, by omega⟩
    rw [List.getElem?_append_right hi.le, List.getElem?_append_right (by rw [List.length_map]; exact hi.le), List.length_map, hk,
      List.getElem?_cons_succ, List.getElem?_cons_succ, List.getElem?_map]
    cases ys[k]? with
    | none => rfl
    | some y => exact congrArg some (hf i y (by omega))

/-- A loop: `pre`, a label, `body`, a BL back to the label, `post`. -/
def loop (pre body post : List Call) (rs1 rs2 : CInt) (tgt : String) : List Call :=
  pre ++ (.add_label tgt :: (body ++ (.add_branch .BL rs1 rs2 tgt :: post)))

/-- The listing of a loop. -/
def loop_listing (pre body post : List Mnemonic) (rs1 rs2 : Reg) : List Mnemonic :=
  pre ++ (body ++ (.BL (BitVec.ofNat 19 pre.length) rs1 rs2 :: (post ++ [.END])))

section
variable {pre body post : List Call} {rs1 rs2 : CInt} {tgt : String} (hpre : Block pre) (hbody : Block body)
  (hpost : Block post) (h1 : rs1 < 16) (h2 : rs2 < 16)
include hpre hbody hpost

include h1 h2 in
theorem loop_made : ∀ c ∈ loop pre body post rs1 rs2 tgt, c.WellMade := by
  intro c hc
  simp only [loop, List.mem_append, List.mem_cons] at hc
  rcases hc with hc | rfl | hc | rfl | hc
  · exact hpre.made c hc
  · trivial
  · exact hbody.made c hc
  · exact ⟨h1, h2⟩
  · exact hpost.made c hc

theorem loop_labelled : Labelled (loop pre body post rs1 rs2 tgt) := by
  intro bt rs1' rs2' tgt' hb
  simp only [loop, List.mem_append, List.mem_cons, reduceCtorEq, false_or, Call.add_branch.injEq] at hb
  rcases hb with hb | hb | ⟨-, -, -, rfl⟩ | hb
  · exact absurd hb (hpre.branch _ _ _ _)
  · exact absurd hb (hbody.branch _ _ _ _)
  · rw [loop, List.count_append, List.count_cons_self, List.count_append, List.count_cons_of_ne (by simp),
      List.count_eq_zero.2 (hpre.label _), List.count_eq_zero.2 (hbody.label _), List.count_eq_zero.2 (hpost.label _)]
  · exact absurd hb (hpost.branch _ _ _ _)

omit hpost in
theorem words_loop : words [] (loop pre body post rs1 rs2 tgt) =
    (words [] pre ++ words [] body) ++ (emitted (place_holder .BL rs1 rs2) ++ words [] post) := by
  have hlabel : words (queue_after [] pre) (.add_label tgt :: (body ++ (.add_branch .BL rs1 rs2 tgt :: post))) =
      words [] (body ++ (.add_branch .BL rs1 rs2 tgt :: post)) := by
    rw [hpre.queue]
    rfl
  rw [loop, words_append, hlabel, words_append, hbody.queue, List.append_assoc]
  rfl

omit hbody hpost in
theorem label_pc_loop : label_pc (loop pre body post rs1 rs2 tgt) tgt = (listing pre).length := by
  rw [loop, label_pc_split pre _ (hpre.label tgt), build_program, listing, List.length_map]

/-- The only recorded branch is the loop's. -/
theorem branches_loop : (build (loop pre body post rs1 rs2 tgt)).branches =
    (∅ : ExtTreeMap Nat String).insert (words [] pre ++ words [] body).length tgt := by
  have hspc : (build (pre ++ (.add_label tgt :: body))).spc = (words [] pre ++ words [] body).length := by
    rw [build_spc, build_program, words_append, hpre.queue]
    rfl
  have hsplit : loop pre body post rs1 rs2 tgt =
      (pre ++ (.add_label tgt :: body)) ++ (.add_branch .BL rs1 rs2 tgt :: post) := by
    simp [loop]
  have hempty : (build (pre ++ (.add_label tgt :: body))).branches = ∅ := by
    rw [build_append, List.foldl_cons, hbody.branches, build]
    exact hpre.branches {}
  rw [hsplit, build_append, List.foldl_cons, hpost.branches, ← hspc, ← hempty, call, add_branch, add_inst_eq]
  rfl

include h1 h2 in
theorem linked_loop (hlen : (listing pre).length < 524288) :
    (linked (loop pre body post rs1 rs2 tgt)).map decode_inst =
      loop_listing (listing pre) (listing body) (listing post) (rs1.setWidth 4) (rs2.setWidth 4) := by
  have hb : (build (loop pre body post rs1 rs2 tgt)).branches = _ := branches_loop hpre hbody hpost
  have hl : linked (loop pre body post rs1 rs2 tgt) = (words [] pre ++ words [] body) ++
      link (place_holder .BL rs1 rs2) (listing pre).length :: (words [] post ++ [SMC_END]) := by
    rw [linked, build_program, words_loop hpre hbody, emitted_place_holder h1 h2, List.append_assoc _ _ [SMC_END],
      List.singleton_append, List.cons_append]
    refine (mapIdx_single (g := id) (words [] pre ++ words [] body) (words [] post ++ [SMC_END]) _ fun i y hi => ?_).trans ?_
    · rw [hb, MapFold.getElem?_insert_ne (Ne.symm hi), ExtTreeMap.getElem?_empty]
      rfl
    · rw [hb, ExtTreeMap.getElem?_insert_self, ← label_pc_loop hpre, List.map_id, List.map_id]
  rw [hl, List.map_append, List.map_append, List.map_cons, List.map_append, decode_link_BL h1 h2 hlen, loop_listing,
    List.append_assoc]
  rfl

end

/-! ## Programs that are not concluded -/

/-- The instructions of a program that is not concluded: a recorded branch goes
to its label. -/
def code {σ ε : Type} (isa : Isa σ ε) (p : Program) : List (Act σ ε) :=
  p.program.mapIdx fun b w =>
    match p.branches[b]? with
    | some tgt => (isa.act w).retarget fun _ => p.labels.getD tgt 0
    | none => isa.act w

section
variable {σ ε : Type} (isa : Isa σ ε)

/-- Linking sends the branches to their labels, if the addresses fit. -/
theorem map_act_linked {cs : List Call} (hc : ∀ c ∈ cs, c.WellMade) (hl : Labelled cs)
    (hfit : ∀ (b : Nat) tgt, (build cs).branches[b]? = some tgt → label_pc cs tgt < 524288) :
    (linked cs).map isa.act = code isa (build cs) ++ [.halt] := by
  have hend : (build cs).branches[(build cs).program.length]? = none := by
    by_contra hne
    obtain ⟨tgt, hb⟩ := Option.ne_none_iff_exists'.1 hne
    obtain ⟨w, hw, -⟩ := (linkable_build hc).holder _ tgt hb
    exact absurd (List.getElem?_eq_some_iff.1 hw).1 (lt_irrefl _)
  have hlast : isa.act SMC_END = .halt := by
    rw [Isa.act, decode_SMC_END]
    rfl
  -- the END of `conclude` is no recorded branch
  rw [linked, List.mapIdx_concat, List.map_append, List.map_singleton, hend, hlast]
  refine congrArg (· ++ [Act.halt]) (List.ext_getElem? fun i => ?_)
  rw [code, List.getElem?_map, List.getElem?_mapIdx, List.getElem?_mapIdx, Option.map_map]
  cases hb : (build cs).branches[i]? with
  | none => rfl
  | some tgt =>
    obtain ⟨w, hw, bt, rs1, rs2, h1, h2, rfl⟩ := (linkable_build hc).holder i tgt hb
    rw [hw]
    change some (isa.act (link _ (label_pc cs tgt))) = some ((isa.act _).retarget fun _ => (build cs).labels.getD tgt 0)
    rw [labels_getD hc hl hb, isa.act_link_place_holder h1 h2 bt (hfit i tgt hb)]

/-- Concluding keeps the runs, if the labels' addresses fit behind the INFO words. -/
theorem halts_conclude {cs : List Call} (hc : ∀ c ∈ cs, c.WellMade) (hl : Labelled cs)
    (hfit : ∀ (b : Nat) tgt, (build cs).branches[b]? = some tgt → entry (build cs).concludeMark (label_pc cs tgt) < 524288)
    {p : Program} (hp : (build cs).conclude = some p) {s s' : σ} {es : List ε}
    (h : Halts (code isa (build cs) ++ [.halt]) 0 s es s') : Halts (p.get_inst_seq.map isa.act) 0 s es s' := by
  have hmap := conclude_map_act_of_targets hc hl isa hfit hp
  apply ((sameRuns_of_relocate hmap).halts s es s').2
  rw [map_act_linked isa hc hl fun b tgt hb => lt_of_le_of_lt (Nat.le_add_right _ _) (hfit b tgt hb)]
  exact h

theorem code_block {cs : List Call} (h : Block cs) : code isa (build cs) = (listing cs).map isa.actOf := by
  have hplain : code isa (build cs) = (words [] cs).map isa.act := by
    apply List.ext_getElem?
    intro i
    rw [code, List.getElem?_mapIdx, build_program, h.branch_none, List.getElem?_map]
  rw [hplain, listing, List.map_map]
  rfl

end

section
variable {pre body post : List Call} {rs1 rs2 : CInt} {tgt : String} (hpre : Block pre) (hbody : Block body)
  (hpost : Block post) (h1 : rs1 < 16) (h2 : rs2 < 16)
include hpre hbody hpost h1 h2

theorem code_loop {σ ε : Type} (isa : Isa σ ε) : code isa (build (loop pre body post rs1 rs2 tgt)) =
    (listing pre).map isa.actOf ++ ((listing body).map isa.actOf ++
      .branch (isa.branch .BL) (fun s => isa.lt s (rs1.setWidth 4) (rs2.setWidth 4)) (listing pre).length ::
        (listing post).map isa.actOf) := by
  have hb : (build (loop pre body post rs1 rs2 tgt)).branches = _ := branches_loop hpre hbody hpost
  have hmap : ∀ cs, (words [] cs).map isa.act = (listing cs).map isa.actOf := by
    intro cs
    rw [listing, List.map_map]
    rfl
  have hbranch : (build (loop pre body post rs1 rs2 tgt)).branches[(words [] pre ++ words [] body).length]? = some tgt := by
    rw [hb, ExtTreeMap.getElem?_insert_self]
  -- the branch as `add_branch` left it, sent to the label
  have hword : (isa.act (place_holder .BL rs1 rs2)).retarget (fun _ => (listing pre).length) =
      .branch (isa.branch .BL) (fun s => isa.lt s (rs1.setWidth 4) (rs2.setWidth 4)) (listing pre).length := by
    rw [Isa.act, decode_place_holder h1 h2 .BL]
    rfl
  rw [code, build_program, words_loop hpre hbody, emitted_place_holder h1 h2, List.singleton_append]
  refine (mapIdx_single (g := isa.act) (words [] pre ++ words [] body) (words [] post) _ fun i y hi => ?_).trans ?_
  · rw [hb, MapFold.getElem?_insert_ne (Ne.symm hi), ExtTreeMap.getElem?_empty]
  · rw [hbranch]
    dsimp only
    rw [labels_getD (loop_made hpre hbody hpost h1 h2) (loop_labelled hpre hbody hpost) hbranch, label_pc_loop hpre, hword,
      List.map_append, hmap, hmap, hmap, List.append_assoc]

end

/-- A program is no longer than its image. -/
theorem length_words_lt {cs : List Call} (hc : ∀ c ∈ cs, c.WellMade) {p' : Program} (h : (build cs).conclude = some p') :
    (words [] cs).length < p'.program.length := by
  obtain ⟨p'', r, hp', rfl, hr⟩ := conclude_spec (linkable_build hc)
  obtain rfl := Option.some.inj (hp'.symm.trans h)
  have hlen : r.program.length = entry (build cs).concludeMark ((build cs).append [SMC_END]).program.length :=
    length_processed hr
  have hle : (build cs).program.length + 1 ≤ entry (build cs).concludeMark ((build cs).program.length + 1) :=
    Nat.le_add_right _ _
  rw [append, List.length_append, List.length_singleton, build_program] at hlen
  rw [build_program] at hle
  change _ < r.program.length
  omega

/-- Half an image's worth of words leaves room for as many INFO words. -/
theorem conclude_executable {cs : List Call} (hc : ∀ c ∈ cs, c.WellMade) (hlen : (words [] cs).length < 1024) :
    ∃ p', (build cs).conclude = some p' ∧ Platform.Executable p' := by
  obtain ⟨p', r, hp', rfl, hr⟩ := conclude_spec (linkable_build hc)
  refine ⟨_, hp', rfl, ?_⟩
  have hlength : r.program.length = entry (build cs).concludeMark ((build cs).append [SMC_END]).program.length :=
    length_processed hr
  rw [append, List.length_append, List.length_singleton, build_program] at hlength
  have hle : before (build cs).concludeMark ((words [] cs).length + 1) ≤ (words [] cs).length + 1 := Nat.count_le _
  change r.program.length ≤ 2048
  rw [hlength, entry]
  omega

end Program

end DRAMBender
