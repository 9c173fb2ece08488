import LispMachine.Assembler
import Mathlib.Data.List.Forall2

/-! # Disassembling what was assembled

A program of typed instructions and labels reads back as the instructions it was made of. The bytes
of a program whose labels are known can be said at once (`image`); the assembler comes to the same
bytes although it fills in the offsets only at the end, and the disassembler reads them one
instruction after the other.
-/

namespace LispMachine

/-! ## Words -/

theorem Word.decode_eq (a b c d : UInt8) : decode a b c d =
    ((a.toNat + b.toNat * 0x100 + c.toNat * 0x10000 + d.toNat * 0x1000000 : Nat) : Int).bmod
      0x80000000 := rfl

theorem Word.decode_encode (n : Int) :
    ∃ a b c d, encode n = [a, b, c, d] ∧ decode a b c d = n.bmod 0x80000000 := by
  refine ⟨_, _, _, _, rfl, ?_⟩
  rw [decode_eq, UInt8.toNat_ofNat', UInt8.toNat_ofNat', UInt8.toNat_ofNat', UInt8.toNat_ofNat']
  have hbits : ((n % 0x100000000).toNat : Int) = n % 0x100000000 := by omega
  generalize (n % 0x100000000).toNat = bits at hbits ⊢
  have hsum : bits % 2 ^ 8 + bits / 0x100 % 2 ^ 8 * 0x100 + bits / 0x10000 % 2 ^ 8 * 0x10000 +
      bits / 0x1000000 % 2 ^ 8 * 0x1000000 = bits := by omega
  rw [hsum, hbits, Int.bmod_def, Int.bmod_def, Int.emod_emod_of_dvd n (by omega)]

theorem Word.bmod_eq_self_iff {n : Int} :
    n.bmod 0x80000000 = n ↔ -0x40000000 ≤ n ∧ n < 0x40000000 := by
  rw [Int.bmod_def]
  split <;> omega

namespace Operand

def layout : Operand → Layout
  | none => .none
  | word _ => .word
  | byte _ => .byte
  | pair _ _ => .pair
  | triple _ _ _ => .triple

/-- What an operand is after it has been written and read. -/
def reread : Operand → Operand
  | word n => .word (n.bmod 0x80000000)
  | operand => operand

@[simp] theorem length_bytes (operand : Operand) : operand.bytes.length = operand.layout.width := by
  cases operand <;> rfl

theorem read?_bytes (operand : Operand) (front rest : List UInt8) :
    read? operand.layout (front ++ (operand.bytes ++ rest)).toArray front.length =
      some operand.reread := by
  cases operand with
  | word n =>
    obtain ⟨a, b, c, d, hn, hd⟩ := Word.decode_encode n
    simp [layout, read?, bytes, hn, reread, ← hd]
  | _ => simp [layout, read?, bytes, reread]

end Operand

theorem Item.decode?_instruction {op : Opcode} {operand : Operand} (h : operand.layout = op.layout)
    (front rest : List UInt8) :
    decode? (front ++ (op.byte :: operand.bytes ++ rest)).toArray front.length =
      some (.instruction ⟨front.length, op, operand.reread⟩) := by
  have hbyte : (front ++ (op.byte :: operand.bytes ++ rest)).toArray[front.length]? =
      some op.byte := by
    simp
  have hread := operand.read?_bytes (front ++ [op.byte]) rest
  rw [List.length_append, List.length_singleton, List.append_assoc, h] at hread
  simp only [decode?, hbyte, Option.map_some, Opcode.ofByte?_byte]
  rw [show front ++ (op.byte :: operand.bytes ++ rest) =
    front ++ ([op.byte] ++ (operand.bytes ++ rest))
    from rfl, hread]

/-! ## Programs of typed statements -/

namespace Statement

/-- A label, or an instruction with the operands its opcode asks for. A relative operand is given by
its label. -/
def Typed : Statement → Prop
  | label _ => True
  | raw _ => False
  | instruction op operand => op.isRelative = false ∧ operand.layout = op.layout
  | branch op _ => op.isRelative = true

instance : DecidablePred Typed := fun s => by
  cases s <;> unfold Typed <;> infer_instance

def label? : Statement → Option String
  | label name => some name
  | _ => none

def bytes (labels : List (String × Nat)) (pos : Nat) : Statement → List UInt8
  | label _ => []
  | raw bytes => bytes
  | instruction op operand => op.byte :: operand.bytes
  | branch op name => op.byte :: Word.encode ((labels.lookup name).getD 0 - (pos + 1 + 4))

end Statement

/-- The bytes of a program that starts at `pos`, given where the labels stand. -/
def image (labels : List (String × Nat)) (pos : Nat) : List Statement → List UInt8
  | [] => []
  | s :: statements =>
    s.bytes labels pos ++ image labels (pos + (s.bytes labels pos).length) statements

namespace Assembler

/-! ## Filling in the offsets -/

theorem append_eq (code : Code) (bytes : List UInt8) : code ++ bytes = code ++ bytes.toArray := by
  apply Array.ext'
  simp

@[simp] theorem size_append (code : Code) (bytes : List UInt8) :
    (code ++ bytes).size = code.size + bytes.length := by
  simp [append_eq]

@[simp] theorem here_append (a : Assembler) (bytes : List UInt8) :
    (a.append bytes).here = a.here + bytes.length :=
  size_append ..

theorem size_overwrite (code : Code) (pos : Nat) (bytes : List UInt8) :
    (overwrite code pos bytes).size = code.size := by
  induction bytes generalizing code pos with
  | nil => rfl
  | cons b bytes ih => rw [overwrite, ih, Array.size_setIfInBounds]

theorem overwrite_append_left {code tail : Code} {pos : Nat} {bytes : List UInt8}
    (h : pos + bytes.length ≤ code.size) :
    overwrite (code ++ tail) pos bytes = overwrite code pos bytes ++ tail := by
  induction bytes generalizing code pos with
  | nil => rfl
  | cons b bytes ih =>
    rw [List.length_cons] at h
    rw [overwrite, overwrite, Array.setIfInBounds_append_left (by omega)]
    exact ih (by rw [Array.size_setIfInBounds]; omega)

theorem overwrite_append_right (code : Code) (old : List UInt8) {bytes : List UInt8}
    (h : old.length = bytes.length) :
    overwrite (code ++ old) code.size bytes = code ++ bytes := by
  induction bytes generalizing code old with
  | nil =>
    rw [List.length_eq_zero_iff.1 h]
    rfl
  | cons b bytes ih =>
    obtain _ | ⟨o, old⟩ := old
    · cases h
    · have hset : (code ++ (o :: old)).setIfInBounds code.size b = code.push b ++ old := by
        apply Array.ext'
        simp
      rw [overwrite, hset, ← Array.size_push b, ih _ _ (by simpa using h)]
      apply Array.ext'
      simp

variable {labels : List (String × Nat)} {a : Assembler} {resolved : Code}

theorem resolve_append {code code' : Code} {use : LabelUse} (tail : Code)
    (h : use.pos + 4 ≤ code.size) (hr : resolve labels code use = .ok code') :
    resolve labels (code ++ tail) use = .ok (code' ++ tail) ∧ code'.size = code.size := by
  rw [resolve] at hr ⊢
  cases hl : labels.lookup use.label with
  | none =>
    rw [hl] at hr
    cases hr
  | some target =>
    simp only [hl] at hr ⊢
    split at hr
    next hrange =>
      cases hr
      rw [if_pos hrange, overwrite_append_left h]
      exact ⟨rfl, size_overwrite ..⟩
    next => cases hr

theorem foldlM_resolve_append {uses : List LabelUse} {code code' : Code} (tail : Code)
    (h : ∀ u ∈ uses, u.pos + 4 ≤ code.size) (hr : uses.foldlM (resolve labels) code = .ok code') :
    uses.foldlM (resolve labels) (code ++ tail) = .ok (code' ++ tail) := by
  induction uses generalizing code with
  | nil =>
    cases hr
    rfl
  | cons u uses ih =>
    rw [List.foldlM_cons] at hr ⊢
    cases hu : resolve labels code u with
    | error e =>
      rw [hu] at hr
      cases hr
    | ok next =>
      rw [hu] at hr
      obtain ⟨happ, hsize⟩ := resolve_append tail (h u List.mem_cons_self) hu
      rw [happ]
      exact ih (fun v hv => hsize ▸ h v (List.mem_cons_of_mem _ hv)) hr

/-- The code with all pending offsets of `a` filled in. -/
structure Resolved (labels : List (String × Nat)) (a : Assembler) (code : Code) : Prop where
  filled : a.uses.foldlM (resolve labels) a.code = .ok code
  size : code.size = a.here
  inside : ∀ u ∈ a.uses, u.pos + 4 ≤ a.here

theorem Resolved.append {code : Code} (h : Resolved labels a code) (bytes : List UInt8) :
    Resolved labels (a.append bytes) (code ++ bytes) where
  filled := by
    rw [Assembler.append, append_eq, append_eq]
    exact foldlM_resolve_append bytes.toArray h.inside h.filled
  size := by rw [size_append, here_append, h.size]
  inside u hu := by
    have := h.inside u hu
    rw [here_append]
    omega

theorem resolve_blank {name : String} {target : Nat} (hl : labels.lookup name = some target)
    (code : Code) (ht : target < 0x40000000) (hsize : code.size + 4 < 0x40000000) :
    resolve labels (code ++ ([0, 0, 0, 0] : List UInt8)) ⟨code.size, name⟩ =
      .ok (code ++ Word.encode (target - (code.size + 4))) := by
  rw [resolve]
  simp only [hl]
  rw [if_pos (by omega), overwrite_append_right code [0, 0, 0, 0] (by rfl)]

/-- A new relative operand is blank and waits for its label. -/
theorem Resolved.use {code : Code} (h : Resolved labels a code) {name : String} {target : Nat}
    (hl : labels.lookup name = some target) (ht : target < 0x40000000)
    (hsize : a.here + 4 < 0x40000000) :
    Resolved labels { a.append [0, 0, 0, 0] with uses := a.uses ++ [⟨a.here, name⟩] }
      (code ++ Word.encode (target - (a.here + 4))) := by
  obtain ⟨hfilled, hsize', hinside⟩ := h.append [0, 0, 0, 0]
  have hhere : (a.append [0, 0, 0, 0]).here = a.here + 4 := here_append ..
  refine ⟨?_, by rw [size_append, h.size]; exact hhere.symm, fun u hu => ?_⟩
  · rw [List.foldlM_append]
    change (List.foldlM (resolve labels) (a.append [0, 0, 0, 0]).code
      (a.append [0, 0, 0, 0]).uses >>= _) = _
    rw [hfilled]
    change (resolve labels _ ⟨a.here, name⟩ >>= pure) = _
    rw [bind_pure, ← h.size, resolve_blank hl code ht (by rw [h.size]; exact hsize)]
  · rcases List.mem_append.1 hu with hu | hu
    · exact hinside u hu
    · rw [List.mem_singleton.1 hu]
      exact Nat.le_of_eq hhere.symm

theorem Resolved.add {code : Code} (h : Resolved labels a code) {s : Statement}
    (hs : ∀ op name, s = .branch op name → ∃ target, labels.lookup name = some target ∧
      target < 0x40000000)
    (hsize : (a.add s).here < 0x40000000) :
    Resolved labels (a.add s) (code ++ s.bytes labels a.here) := by
  cases s with
  | label name =>
    obtain ⟨hfilled, hsize, hinside⟩ := h.append []
    exact ⟨hfilled, hsize, hinside⟩
  | raw bytes => exact h.append bytes
  | instruction op operand => exact h.append _
  | branch op name =>
    obtain ⟨target, hl, ht⟩ := hs op name rfl
    have hbytes : code ++ Statement.bytes labels a.here (.branch op name) =
        code ++ [op.byte] ++ Word.encode (target - ((a.append [op.byte]).here + 4)) := by
      simp [Statement.bytes, hl, append_eq]
    rw [hbytes]
    have hhere : (a.add (.branch op name)).here = (a.append [op.byte]).here + 4 :=
      here_append (a.append [op.byte]) [0, 0, 0, 0]
    exact (h.append [op.byte]).use hl ht (hhere ▸ hsize)

theorem here_add (a : Assembler) (s : Statement) (labels : List (String × Nat)) :
    (a.add s).here = a.here + (s.bytes labels a.here).length := by
  cases s with
  | label name => rfl
  | branch op name =>
    change ((a.append [op.byte]).append [0, 0, 0, 0]).here = _
    rw [here_append, here_append]
    rfl
  | _ => exact here_append ..

theorem here_le_addAll (a : Assembler) (statements : List Statement) :
    a.here ≤ (a.addAll statements).here := by
  induction statements generalizing a with
  | nil => exact Nat.le_refl _
  | cons s statements ih =>
    have := ih (a.add s)
    rw [here_add a s []] at this
    exact Nat.le_trans (Nat.le_add_right ..) this

/-- The assembler comes to the image of the program. -/
theorem Resolved.addAll {code : Code} (h : Resolved labels a code) {statements : List Statement}
    (hs : ∀ op name, .branch op name ∈ statements → ∃ target, labels.lookup name = some target ∧
      target < 0x40000000)
    (hsize : (a.addAll statements).here < 0x40000000) :
    Resolved labels (a.addAll statements) (code ++ image labels a.here statements) := by
  induction statements generalizing a code with
  | nil =>
    obtain ⟨hfilled, hsize, hinside⟩ := h.append []
    exact ⟨hfilled, hsize, hinside⟩
  | cons s statements ih =>
    have hlt := Nat.lt_of_le_of_lt (here_le_addAll (a.add s) statements) hsize
    have h' := h.add (fun op name hb => hs op name (hb ▸ List.mem_cons_self)) hlt
    have := ih h' (fun op name hb => hs op name (List.mem_cons_of_mem _ hb)) hsize
    rw [here_add a s labels] at this
    change Resolved labels ((a.add s).addAll statements) _
    simpa [image, append_eq] using this

/-! ## Labels -/

@[simp] theorem labels_append (bytes : List UInt8) : (a.append bytes).labels = a.labels := rfl

theorem lookup_addAll {statements : List Statement} {name : String}
    (h : .label name ∉ statements) :
    (a.addAll statements).labels.lookup name = a.labels.lookup name := by
  induction statements generalizing a with
  | nil => rfl
  | cons s statements ih =>
    rw [List.mem_cons, not_or] at h
    refine (ih h.2).trans ?_
    cases s with
    | label other =>
      have : (name == other) = false := beq_false_of_ne fun heq => h.1 (heq ▸ rfl)
      rw [add, List.lookup_cons, this]
    | _ => rfl

theorem lookup_label {before after : List Statement} {name : String}
    (h : .label name ∉ after) : ((a.addAll (before ++ .label name :: after)).labels.lookup name) =
      some (a.addAll before).here := by
  rw [addAll, List.foldl_append, List.foldl_cons]
  change (((a.addAll before).add (.label name)).addAll after).labels.lookup name = _
  rw [lookup_addAll h, add, List.lookup_cons, beq_self_eq_true]

theorem duplicate_addAll {statements : List Statement} (h : a.duplicate = none)
    (hnew : ∀ name, .label name ∈ statements → a.labels.lookup name = none)
    (hnodup : (statements.filterMap Statement.label?).Nodup) :
    (a.addAll statements).duplicate = none := by
  induction statements generalizing a with
  | nil => exact h
  | cons s statements ih =>
    have hold := fun name hn => hnew name (List.mem_cons_of_mem _ hn)
    cases s with
    | label name =>
      have hcons : (name :: statements.filterMap Statement.label?).Nodup := hnodup
      rw [List.nodup_cons] at hcons
      refine ih ?_ (fun other ho => ?_) hcons.2
      · simp [add, h, hnew name List.mem_cons_self]
      · have hne : (other == name) = false := by
          refine beq_false_of_ne fun heq => hcons.1 ?_
          exact List.mem_filterMap.2 ⟨.label name, heq ▸ ho, rfl⟩
        rw [add, List.lookup_cons, hne]
        exact hold other ho
    | _ => exact ih h hold hnodup

/-! ## Reading the instructions -/

/-- The instructions among `statements`, each with the position of the next byte at its turn. -/
def emissions (a : Assembler) : List Statement → List (Nat × Statement)
  | [] => []
  | .label name :: statements => (a.add (.label name)).emissions statements
  | s :: statements => (a.here, s) :: (a.add s).emissions statements

end Assembler

/-- What the disassembler shows of a statement at `pos` in a finished program. -/
inductive Statement.ReadsAs (program : Assembly) (pos : Nat) : Statement → Item → Prop
  | bytes {op : Opcode} {operand : Operand} : operand.layout ≠ .word →
      ReadsAs program pos (.instruction op operand) (.instruction ⟨pos, op, operand⟩)
  | word {op : Opcode} {n m : Int} : m = n.bmod 0x80000000 →
      (m = n ↔ -0x40000000 ≤ n ∧ n < 0x40000000) →
      ReadsAs program pos (.instruction op (.word n)) (.instruction ⟨pos, op, .word m⟩)
  | branch {op : Opcode} {name : String} {target : Nat} {i : Instruction} : i.pos = pos →
      i.op = op → program.position? name = some target → i.target? = some (target : Int) →
      ReadsAs program pos (.branch op name) (.instruction i)

namespace Assembler

variable {a : Assembler} {labels : List (String × Nat)}

theorem disassembleFrom_cons {op : Opcode} {operand : Operand} (h : operand.layout = op.layout)
    {code : Code} {front rest : List UInt8}
    (hcode : code = (front ++ (op.byte :: operand.bytes ++ rest)).toArray) :
    disassembleFrom code front.length = .instruction ⟨front.length, op, operand.reread⟩ ::
      disassembleFrom code (front ++ op.byte :: operand.bytes).length := by
  have hdecode := Item.decode?_instruction h front rest
  have hlength : (front ++ op.byte :: operand.bytes).length = front.length + op.length := by
    rw [List.length_append, List.length_cons, Operand.length_bytes, h, Opcode.length,
      Nat.add_comm 1]
  rw [← hcode] at hdecode
  rw [disassembleFrom, hlength]
  split
  next hnone => rw [hdecode] at hnone; cases hnone
  next item hsome =>
    rw [hdecode] at hsome
    cases hsome
    rfl

/-- An instruction of the image is read as it was stated, and what follows it is read next. -/
theorem disassembleFrom_image {statements : List Statement} (front : List UInt8)
    {program : Assembly} (htyped : ∀ s ∈ statements, s.Typed) (hhere : a.here = front.length)
    (hcode : program.code = (front ++ image program.labels front.length statements).toArray)
    (hs : ∀ op name, .branch op name ∈ statements → ∃ target, program.position? name = some target ∧
      target < 0x40000000)
    (hsize : program.code.size < 0x40000000) :
    List.Forall₂ (fun e item => e.2.ReadsAs program e.1 item) (a.emissions statements)
      (disassembleFrom program.code front.length) := by
  induction statements generalizing a front with
  | nil =>
    have hnone : Item.decode? program.code front.length = none := by
      simp [hcode, image, Item.decode?]
    rw [disassembleFrom]
    split
    next => exact .nil
    next item hsome => rw [hnone] at hsome; cases hsome
  | cons s statements ih =>
    have htyped' := fun s hs => htyped s (List.mem_cons_of_mem _ hs)
    have hs' := fun op name hb => hs op name (List.mem_cons_of_mem _ hb)
    have hnext : List.Forall₂ (fun e item => e.2.ReadsAs program e.1 item)
        ((a.add s).emissions statements)
        (disassembleFrom program.code (front ++ s.bytes program.labels front.length).length) := by
      refine ih _ htyped' ?_ ?_ hs'
      · rw [here_add a s program.labels, hhere, List.length_append]
      · rw [hcode, image, List.append_assoc, List.length_append]
    cases s with
    | label name =>
      rw [Statement.bytes, List.append_nil] at hnext
      exact hnext
    | raw bytes => exact (htyped _ List.mem_cons_self).elim
    | instruction op operand =>
      obtain ⟨-, hlayout⟩ := htyped _ List.mem_cons_self
      change List.Forall₂ _ ((a.here, .instruction op operand) :: emissions _ statements) _
      rw [disassembleFrom_cons hlayout hcode, hhere]
      refine .cons ?_ hnext
      cases operand with
      | word n => exact .word rfl Word.bmod_eq_self_iff
      | _ => exact .bytes (by simp [Operand.layout])
    | branch op name =>
      have hrelative : op.isRelative = true := htyped _ List.mem_cons_self
      have hword : op.layout = .word := by cases op <;> first | rfl | cases hrelative
      have hlayout (n : Int) : (Operand.word n).layout = op.layout := hword.symm
      obtain ⟨target, hl, ht⟩ := hs op name List.mem_cons_self
      have hoffset : Statement.bytes program.labels front.length (.branch op name) =
          op.byte :: (Operand.word (target - (front.length + 1 + 4))).bytes := by
        rw [Statement.bytes, show program.labels.lookup name = some target from hl]
        rfl
      have hlt : front.length + 1 + 4 < 0x40000000 := by
        rw [hcode, image, hoffset] at hsize
        simp [Operand.layout, Layout.width] at hsize
        omega
      rw [image, hoffset] at hcode
      rw [hoffset] at hnext
      change List.Forall₂ _ ((a.here, .branch op name) :: emissions _ statements) _
      rw [disassembleFrom_cons (hlayout _) hcode, hhere]
      refine .cons (.branch rfl rfl hl ?_) hnext
      rw [Operand.reread, Word.bmod_eq_self_iff.2 (by omega), Instruction.target?]
      simp only [hrelative, if_true, Opcode.length, hword, Layout.width, Option.some.injEq]
      omega

/-- A program of labels and typed instructions, in which no label is defined twice and every label
that is used is defined, is assembled to code that reads back as its instructions, each at the
position of the next byte at its turn and each relative one with the position of its label for a
target. The assembler is then as good as new. -/
theorem disassemble_finish {statements : List Statement} (htyped : ∀ s ∈ statements, s.Typed)
    (hnodup : (statements.filterMap Statement.label?).Nodup)
    (hdefined : ∀ op name, .branch op name ∈ statements → .label name ∈ statements)
    (hsize : (addAll {} statements).here < 0x40000000) :
    ∃ program, (addAll {} statements).finish = (.ok program, {}) ∧
      List.Forall₂ (fun e item => e.2.ReadsAs program e.1 item) (emissions {} statements)
        (disassemble program.code) ∧
      ∀ before name after, statements = before ++ .label name :: after →
        program.position? name = some (addAll {} before).here := by
  have hlabel (before : List Statement) (name : String) (after : List Statement)
      (h : statements = before ++ .label name :: after) :
      (addAll {} statements).labels.lookup name = some (addAll {} before).here := by
    rw [h]
    refine lookup_label fun ha => ?_
    rw [h, List.filterMap_append] at hnodup
    have hcons : (name :: after.filterMap Statement.label?).Nodup :=
      (List.nodup_append.1 hnodup).2.1
    exact (List.nodup_cons.1 hcons).1 (List.mem_filterMap.2 ⟨_, ha, rfl⟩)
  have hnear (op : Opcode) (name : String) (h : .branch op name ∈ statements) :
      ∃ target, (addAll {} statements).labels.lookup name = some target ∧ target < 0x40000000 := by
    obtain ⟨before, after, hsplit⟩ := List.append_of_mem (hdefined op name h)
    refine ⟨_, hlabel before name after hsplit, Nat.lt_of_le_of_lt ?_ hsize⟩
    rw [hsplit, addAll, addAll, List.foldl_append]
    exact here_le_addAll _ (.label name :: after)
  have hstart : Resolved (addAll {} statements).labels {} #[] := ⟨rfl, rfl, fun u hu => by cases hu⟩
  obtain ⟨hfilled, hcount, -⟩ := hstart.addAll hnear hsize
  have hempty (bytes : List UInt8) : (#[] : Code) ++ bytes = bytes.toArray := by
    apply Array.ext'
    simp
  rw [hempty] at hfilled hcount
  refine ⟨⟨(image (addAll {} statements).labels 0 statements).toArray,
    (addAll {} statements).labels⟩,
    ?_, disassembleFrom_image [] htyped rfl rfl hnear (hcount ▸ hsize), hlabel⟩
  rw [finish, duplicate_addAll rfl (fun _ _ => rfl) hnodup]
  simp only [hfilled]
  rfl

/-- Labels that are used before, after and at their definition. -/
def references : List Statement :=
  [.label "start", .instruction .loadInteger (.word (-0x40000001)), .branch .jumpTrue "end",
    .branch .jump "start", .label "loop", .branch .jumpFalse "loop",
    .instruction .frame (.triple 1 2 3), .label "end", .instruction .halt .none]

theorem disassemble_references :
    ((∀ s ∈ references, s.Typed) ∧ (references.filterMap Statement.label?).Nodup ∧
      (∀ op name, .branch op name ∈ references → .label name ∈ references) ∧
      (addAll {} references).here < 0x40000000) ∧
    ∃ program, (addAll {} references).finish = (.ok program, {}) ∧
      List.Forall₂ (fun e item => e.2.ReadsAs program e.1 item) (emissions {} references)
        (disassemble program.code) ∧
      ∀ before name after, references = before ++ .label name :: after →
        program.position? name = some (addAll {} before).here := by
  have hdefined (op : Opcode) (name : String) (h : .branch op name ∈ references) :
      .label name ∈ references := by
    simp only [references, List.mem_cons, reduceCtorEq, Statement.branch.injEq, List.not_mem_nil,
      or_false, false_or] at h
    obtain ⟨-, rfl⟩ | ⟨-, rfl⟩ | ⟨-, rfl⟩ := h <;> decide
  have htyped : ∀ s ∈ references, s.Typed := by decide
  have hnodup : (references.filterMap Statement.label?).Nodup := by decide
  have hsize : (addAll {} references).here < 0x40000000 := by decide
  exact ⟨⟨htyped, hnodup, hdefined, hsize⟩, disassemble_finish htyped hnodup hdefined hsize⟩

/-- It is not enough that the labels in use are defined once: a label nothing refers to may not be
defined twice either. -/
theorem finish_refuses_unused_label : ∃ statements : List Statement,
    (∀ s ∈ statements, s.Typed) ∧
    (∀ op name, .branch op name ∈ statements → statements.count (.label name) = 1) ∧
    (addAll {} statements).here < 0x40000000 ∧
    (addAll {} statements).finish.1 = .error (.duplicateLabel "unused") := by
  refine ⟨[.label "unused", .label "unused"], by decide, fun op name h => ?_, by decide, rfl⟩
  simp at h

end Assembler

end LispMachine
