import LispMachine.Instruction.Item

/-! # Listings

The items of a program lie one after the other and leave no byte out. A line of a listing shows the
bytes of its item in a column of 14 characters, which is wide enough for the longest instruction, so
the columns of all lines together show the program.
-/

namespace LispMachine

/-! ## Items one after the other -/

theorem Operand.isSome_read?_iff (layout : Layout) {code : Code} {pos : Nat} (h : pos ≤ code.size) :
    (read? layout code pos).isSome ↔ pos + layout.width ≤ code.size := by
  have hbyte (i : Nat) : (∃ b, code[i]? = some b) ↔ i < code.size := by
    rw [← Option.isSome_iff_exists, isSome_getElem?]
  cases layout with
  | none => simpa [read?, Layout.width] using h
  | _ =>
    simp only [read?, Layout.width, Option.bind_eq_bind, Option.isSome_bind, Option.any_eq_true,
      Option.isSome_some, and_true, exists_and_right, hbyte]
    omega

theorem Opcode.length_le (op : Opcode) : op.length ≤ 5 := by
  rw [length]
  cases op.layout <;> decide

namespace Item

variable {code : Code} {pos : Nat} {item : Item}

def isTruncated : Item → Bool
  | truncated _ _ => true
  | _ => false

def bytes (code : Code) (item : Item) : List UInt8 :=
  (code.extract item.pos (item.pos + item.length code.size)).toList

theorem pos_of_decode? (h : decode? code pos = some item) : item.pos = pos := by
  obtain ⟨byte, -, rfl⟩ := Option.map_eq_some_iff.1 h
  split
  · rfl
  · split <;> rfl

/-- An item ends inside the code and is no longer than the longest instruction. -/
theorem length_bounds (h : decode? code pos = some item) :
    pos + item.length code.size ≤ code.size ∧ item.length code.size ≤ 5 := by
  have hlt := lt_size_of_decode? h
  obtain ⟨byte, -, rfl⟩ := Option.map_eq_some_iff.1 h
  split
  next => exact ⟨hlt, by rw [length]; decide⟩
  next op _ =>
    have hop := op.length_le
    have hread := Operand.isSome_read?_iff op.layout hlt
    split
    next hnone =>
      have hmissing : ¬ pos + 1 + op.layout.width ≤ code.size := by
        rw [← hread, hnone]
        exact Bool.false_ne_true
      rw [Opcode.length] at hop
      rw [length]
      omega
    next operand hsome =>
      have hwhole : pos + 1 + op.layout.width ≤ code.size := by
        rw [← hread, hsome]
        rfl
      change pos + op.length ≤ code.size ∧ op.length ≤ 5
      rw [Opcode.length] at hop ⊢
      omega

theorem end_of_isTruncated (h : decode? code pos = some item) (ht : item.isTruncated = true) :
    pos + item.length code.size = code.size := by
  have hlt := lt_size_of_decode? h
  have hpos := pos_of_decode? h
  cases item with
  | truncated p op =>
    change p = pos at hpos
    rw [length]
    omega
  | _ => cases ht

theorem length_bytes (h : decode? code pos = some item) :
    (item.bytes code).length = item.length code.size := by
  have hend := (length_bounds h).1
  rw [← pos_of_decode? h] at hend
  simp [bytes]
  omega

end Item

/-- The items lie one after the other from `pos` to the end of a program of `size` bytes, and each
of them has a byte. -/
def Tiles (size : Nat) : Nat → List Item → Prop
  | pos, [] => pos = size
  | pos, item :: items =>
    item.pos = pos ∧ 0 < item.length size ∧ Tiles size (pos + item.length size) items

namespace Tiles

variable {size pos : Nat} {items : List Item}

theorem le_pos (h : Tiles size pos items) : ∀ item ∈ items, pos ≤ item.pos := by
  induction items generalizing pos with
  | nil => exact fun _ h => by cases h
  | cons item items ih =>
    obtain ⟨hpos, hlength, hrest⟩ := h
    intro other hmem
    rcases List.mem_cons.1 hmem with rfl | hmem
    · exact Nat.le_of_eq hpos.symm
    · have := ih hrest other hmem
      omega

theorem pairwise (h : Tiles size pos items) : items.Pairwise (fun a b => a.pos < b.pos) := by
  induction items generalizing pos with
  | nil => exact .nil
  | cons item items ih =>
    obtain ⟨hpos, hlength, hrest⟩ := h
    refine .cons (fun other hmem => ?_) (ih hrest)
    have := hrest.le_pos other hmem
    omega

theorem flatMap_bytes {code : Code} (h : Tiles code.size pos items) :
    items.flatMap (·.bytes code) = code.toList.drop pos := by
  induction items generalizing pos with
  | nil =>
    change pos = code.size at h
    simp [h]
  | cons item items ih =>
    obtain ⟨hpos, -, hrest⟩ := h
    have hdrop : code.toList.drop (pos + item.length code.size) =
        (code.toList.drop pos).drop (item.length code.size) := by rw [List.drop_drop]
    rw [List.flatMap_cons, ih hrest, Item.bytes, hpos, Array.toList_extract,
      List.extract_eq_take_drop, Nat.add_sub_cancel_left, hdrop, List.take_append_drop]

end Tiles

theorem tiles_disassembleFrom {code : Code} {pos : Nat} (h : pos ≤ code.size) :
    Tiles code.size pos (disassembleFrom code pos) := by
  fun_induction disassembleFrom code pos with
  | case1 pos hnone =>
    have hsize : code.size ≤ pos := by simpa [Item.decode?] using hnone
    exact Nat.le_antisymm h hsize
  | case2 pos item hsome ih =>
    exact ⟨Item.pos_of_decode? hsome, Item.length_pos_of_decode? hsome,
      ih (Item.length_bounds hsome).1⟩

theorem decode?_of_mem {code : Code} {pos : Nat} {item : Item}
    (h : item ∈ disassembleFrom code pos) :
    Item.decode? code item.pos = some item := by
  fun_induction disassembleFrom code pos with
  | case1 pos hnone => cases h
  | case2 pos other hsome ih =>
    rcases List.mem_cons.1 h with rfl | h
    · rwa [Item.pos_of_decode? hsome]
    · exact ih h

/-- Nothing comes after an instruction that lacks operand bytes. -/
theorem not_isTruncated_of_mem_dropLast {code : Code} {pos : Nat} {item : Item}
    (h : item ∈ (disassembleFrom code pos).dropLast) : item.isTruncated = false := by
  fun_induction disassembleFrom code pos with
  | case1 pos hnone => cases h
  | case2 pos other hsome ih =>
    cases hrest : disassembleFrom code (pos + other.length code.size) with
    | nil =>
      rw [hrest] at h
      cases h
    | cons next rest =>
      rw [hrest] at ih h
      rcases List.mem_cons.1 h with rfl | h
      · refine Bool.eq_false_iff.2 fun ht => ?_
        have hnext : next ∈ disassembleFrom code (pos + item.length code.size) :=
          hrest ▸ List.mem_cons_self
        have hlt := Item.lt_size_of_decode? (decode?_of_mem hnext)
        have hle := (tiles_disassembleFrom (Item.length_bounds hsome).1).le_pos next hnext
        have hend := Item.end_of_isTruncated hsome ht
        omega
      · exact ih h

/-! ## Reading a listing -/

namespace Text

def digit? (c : Char) : Option Nat :=
  if '0' ≤ c ∧ c ≤ '9' then some (c.toNat - '0'.toNat)
  else if 'a' ≤ c ∧ c ≤ 'f' then some (c.toNat - 'a'.toNat + 10)
  else none

def byte? : List Char → Option UInt8
  | [high, low] => do return UInt8.ofNat (16 * (← digit? high) + (← digit? low))
  | _ => none

def words (line : List Char) : List (List Char) := (line.splitOn ' ').filter (! ·.isEmpty)

/-- The bytes in the second column of a line. The first column ends at a blank, two blanks are
between the columns, and the second one is 14 characters wide. -/
def lineBytes? (line : List Char) : Option (List UInt8) :=
  (words (((line.dropWhile (· != ' ')).drop 2).take 14)).mapM byte?

/-- The bytes in the second columns of all lines. -/
def listedBytes? (text : String) : Option (List UInt8) := do
  return (← (text.toList.splitOn '\n').mapM lineBytes?).flatten

/-! ## Numerals -/

theorem digit_of_mem {b n : Nat} {c : Char} (hb : 1 < b) (h : c ∈ Nat.toDigits b n) :
    ∃ d < b, c = Nat.digitChar d := by
  induction n using Nat.strongRecOn with
  | ind n ih =>
    rw [Nat.toDigits_eq_if hb] at h
    split at h
    next hn => exact ⟨n, hn, List.mem_singleton.1 h⟩
    next hn =>
      rcases List.mem_append.1 h with h | h
      · exact ih (n / b) (Nat.div_lt_self (by omega) hb) h
      · exact ⟨n % b, Nat.mod_lt n (by omega), List.mem_singleton.1 h⟩

theorem digitChar_ne {d : Nat} (h : d < 16) : d.digitChar ≠ ' ' ∧ d.digitChar ≠ '\n' := by
  revert d
  decide

theorem ne_of_mem_hex {width n : Nat} {c : Char} (h : c ∈ (hex width n).toList) :
    c ≠ ' ' ∧ c ≠ '\n' := by
  rw [hex, String.toList_ofList] at h
  rcases List.mem_append.1 h with h | h
  · rw [(List.mem_replicate.1 h).2]
    decide
  · obtain ⟨d, hd, rfl⟩ := digit_of_mem (by decide) h
    exact digitChar_ne hd

theorem newline_not_mem_hex (width n : Nat) : '\n' ∉ (hex width n).toList :=
  fun h => (ne_of_mem_hex h).2 rfl

theorem newline_not_mem_repr (n : Int) : '\n' ∉ n.repr.toList := by
  have hnat (n : Nat) : '\n' ∉ Nat.toDigits 10 n := by
    intro h
    obtain ⟨d, hd, heq⟩ := digit_of_mem (by decide) h
    exact (digitChar_ne (by omega)).2 heq.symm
  cases n with
  | ofNat n =>
    change '\n' ∉ n.repr.toList
    simp [hnat]
  | negSucc n =>
    change '\n' ∉ ("-" ++ (n + 1).repr).toList
    simp [hnat]

theorem toList_hex_byte (b : UInt8) :
    (hex 2 b.toNat).toList = [Nat.digitChar (b.toNat / 16), Nat.digitChar (b.toNat % 16)] := by
  have hb := b.toNat_lt
  rw [hex, String.toList_ofList, Nat.toDigits_eq_if (by decide)]
  split
  next h =>
    rw [Nat.div_eq_of_lt h, Nat.mod_eq_of_lt h]
    rfl
  next h =>
    rw [Nat.toDigits_of_lt_base (by omega)]
    rfl

theorem digit?_digitChar {d : Nat} (h : d < 16) : digit? d.digitChar = some d := by
  revert d
  decide

theorem byte?_hex (b : UInt8) : byte? (hex 2 b.toNat).toList = some b := by
  have hb := b.toNat_lt
  rw [toList_hex_byte, byte?, digit?_digitChar (by omega), digit?_digitChar (by omega)]
  change some (UInt8.ofNat (16 * (b.toNat / 16) + b.toNat % 16)) = some b
  rw [Nat.div_add_mod, UInt8.ofNat_toNat]

/-! ## Columns -/

theorem words_append_blanks (line : List Char) (n : Nat) :
    words (line ++ List.replicate n ' ') = words line := by
  induction n generalizing line with
  | zero => rw [List.replicate_zero, List.append_nil]
  | succ n ih =>
    have hblanks : words (List.replicate n ' ') = [] := ih []
    rw [words] at hblanks ⊢
    rw [List.replicate_succ, List.splitOn_append_cons_self, List.filter_append, hblanks,
      List.append_nil, words]

theorem words_intercalate {ws : List (List Char)} (hws : ∀ w ∈ ws, w ≠ [] ∧ ' ' ∉ w) :
    words ([' '].intercalate ws) = ws := by
  cases ws with
  | nil => rfl
  | cons w ws =>
    rw [words, List.splitOn_intercalate ' ' (fun w hw => (hws w hw).2) (List.cons_ne_nil w ws),
      List.filter_eq_self]
    intro v hv
    simpa using (hws v hv).1

theorem mem_intercalate {ws : List (List Char)} {c : Char} (h : c ∈ [' '].intercalate ws) :
    c = ' ' ∨ ∃ w ∈ ws, c ∈ w := by
  induction ws with
  | nil => cases h
  | cons w ws ih =>
    cases ws with
    | nil => exact .inr ⟨w, List.mem_cons_self, by rwa [List.intercalate_singleton] at h⟩
    | cons v ws =>
      rw [List.intercalate_cons_cons, List.mem_append, List.mem_append] at h
      rcases h with (h | h) | h
      · exact .inr ⟨w, List.mem_cons_self, h⟩
      · exact .inl (List.mem_singleton.1 h)
      · exact (ih h).imp_right fun ⟨u, hu, hc⟩ => ⟨u, List.mem_cons_of_mem w hu, hc⟩

theorem length_intercalate_le {ws : List (List Char)} {n : Nat} (hws : ∀ w ∈ ws, w.length ≤ n) :
    ([' '].intercalate ws).length ≤ (n + 1) * ws.length - 1 := by
  induction ws with
  | nil => exact Nat.zero_le _
  | cons w ws ih =>
    have hw := hws w List.mem_cons_self
    have hrest := ih fun v hv => hws v (List.mem_cons_of_mem w hv)
    cases ws with
    | nil => simpa using hw
    | cons v ws =>
      rw [List.intercalate_cons_cons, List.length_append, List.length_append, List.length_singleton]
      rw [List.length_cons, Nat.mul_succ] at hrest ⊢
      rw [List.length_cons, Nat.mul_succ]
      omega

theorem mapM_map_eq_some {α β γ : Type} {f : β → Option γ} {write : α → β} {g : α → γ} {l : List α}
    (h : ∀ a ∈ l, f (write a) = some (g a)) : (l.map write).mapM f = some (l.map g) := by
  induction l with
  | nil => rfl
  | cons a l ih =>
    rw [List.map_cons, List.mapM_cons, h a List.mem_cons_self, ih fun b hb =>
      h b (List.mem_cons_of_mem a hb)]
    rfl

end Text

namespace Item

variable {code : Code} {item : Item}

theorem newline_not_mem_mnemonic (op : Opcode) : '\n' ∉ op.mnemonic.toList := by
  cases op <;> decide

theorem newline_not_mem_text (item : Item) : '\n' ∉ item.text.toList := by
  cases item with
  | invalid pos byte => simp [text, Text.newline_not_mem_hex]
  | truncated pos op => simp [text, newline_not_mem_mnemonic]
  | instruction i =>
    have harrow : '\n' ∉ (i.target?.elim "" fun t =>
        " ; -> " ++ Text.hex 4 (t % 0x10000000000000000).toNat).toList := by
      cases i.target? <;> simp [Text.newline_not_mem_hex]
    simp [text, Instruction.text, newline_not_mem_mnemonic, harrow, Text.newline_not_mem_repr]

def column (code : Code) (item : Item) : List Char :=
  [' '].intercalate ((item.bytes code).map fun b => (Text.hex 2 b.toNat).toList)

theorem toList_line (code : Code) (item : Item) : (item.line code).toList =
    (Text.hex 4 item.pos).toList ++ ' ' :: ' ' :: (item.column code ++
      List.replicate (14 - (item.column code).length) ' ' ++ ' ' :: item.text.toList) := by
  have hcolumn : (" ".intercalate ((item.bytes code).map fun b => Text.hex 2 b.toNat)).toList =
      item.column code := by
    rw [String.toList_intercalate, List.map_map]
    rfl
  change (Text.hex 4 item.pos ++ "  " ++ Text.padRight 14 (" ".intercalate ((item.bytes code).map
    fun b => Text.hex 2 b.toNat)) ++ " " ++ item.text).toList = _
  simp only [String.toList_append, Text.padRight, String.toList_ofList, ← String.length_toList,
    hcolumn]
  simp

theorem newline_not_mem_line (code : Code) (item : Item) : '\n' ∉ (item.line code).toList := by
  have hcolumn : '\n' ∉ item.column code := by
    intro h
    obtain heq | ⟨w, hw, hmem⟩ := Text.mem_intercalate h
    · exact absurd heq (by decide)
    · obtain ⟨b, -, rfl⟩ := List.mem_map.1 hw
      exact Text.newline_not_mem_hex 2 b.toNat hmem
  simp [toList_line, Text.newline_not_mem_hex, hcolumn, newline_not_mem_text]

theorem words_column (code : Code) (item : Item) :
    Text.words (item.column code) = (item.bytes code).map fun b => (Text.hex 2 b.toNat).toList := by
  refine Text.words_intercalate fun w hw => ?_
  obtain ⟨b, -, rfl⟩ := List.mem_map.1 hw
  refine ⟨?_, fun h => (Text.ne_of_mem_hex h).1 rfl⟩
  rw [Text.toList_hex_byte]
  exact List.cons_ne_nil _ _

theorem length_column_le (h : (item.bytes code).length ≤ 5) : (item.column code).length ≤ 14 := by
  have htwo : ∀ w ∈ (item.bytes code).map fun b => (Text.hex 2 b.toNat).toList, w.length ≤ 2 := by
    intro w hw
    obtain ⟨b, -, rfl⟩ := List.mem_map.1 hw
    rw [Text.toList_hex_byte]
    exact Nat.le_refl 2
  have hpairs := Text.length_intercalate_le htwo
  rw [List.length_map] at hpairs
  rw [column]
  omega

theorem lineBytes?_line {pos : Nat} (h : decode? code pos = some item) :
    Text.lineBytes? (item.line code).toList = some (item.bytes code) := by
  have hwidth : (item.column code ++ List.replicate (14 - (item.column code).length) ' ').length =
      14 := by
    have := length_column_le (Nat.le_trans (Nat.le_of_eq (length_bytes h)) (length_bounds h).2)
    rw [List.length_append, List.length_replicate]
    omega
  have haddress : ∀ c ∈ (Text.hex 4 item.pos).toList, (c != ' ') = true :=
    fun c hc => bne_iff_ne.2 (Text.ne_of_mem_hex hc).1
  rw [Text.lineBytes?, toList_line, List.dropWhile_append_of_pos haddress,
    List.dropWhile_cons_of_neg (by decide), List.drop_succ_cons, List.drop_succ_cons,
    List.drop_zero, List.take_left' hwidth, Text.words_append_blanks, words_column,
    Text.mapM_map_eq_some (g := id) fun b _ => Text.byte?_hex b, List.map_id]

end Item

theorem splitOn_listing {code : Code} (h : disassemble code ≠ []) :
    (listing code).toList.splitOn '\n' = (disassemble code).map fun item =>
      (item.line code).toList := by
  rw [listing, String.toList_intercalate, List.map_map]
  refine List.splitOn_intercalate '\n' (fun line hline => ?_) (by simpa using h)
  obtain ⟨item, -, rfl⟩ := List.mem_map.1 hline
  exact item.newline_not_mem_line code

/-- The columns of the bytes show the whole program. -/
theorem listedBytes?_listing (code : Code) :
    Text.listedBytes? (listing code) = some code.toList := by
  have hbytes : (disassemble code).flatMap (·.bytes code) = code.toList :=
    (tiles_disassembleFrom (Nat.zero_le _)).flatMap_bytes
  rw [Text.listedBytes?]
  by_cases hempty : disassemble code = []
  · rw [listing, ← hbytes, hempty]
    rfl
  · have hread (item : Item) (h : item ∈ disassemble code) :
        Text.lineBytes? (item.line code).toList = some (item.bytes code) :=
      Item.lineBytes?_line (decode?_of_mem h)
    rw [splitOn_listing hempty, Text.mapM_map_eq_some hread, ← hbytes, List.flatMap_def]
    rfl

/-- The items of a program lie one after the other from its first byte to its last, each with at
least one byte, by increasing addresses. Each is what is decoded there, and only the last may lack
operand bytes. The bytes can be read from the listing again. -/
theorem disassemble_tiles (code : Code) :
    Tiles code.size 0 (disassemble code) ∧
    (disassemble code).Pairwise (fun a b => a.pos < b.pos) ∧
    (∀ item ∈ disassemble code, Item.decode? code item.pos = some item) ∧
    (∀ item ∈ (disassemble code).dropLast, item.isTruncated = false) ∧
    Text.listedBytes? (listing code) = some code.toList := by
  have htiles : Tiles code.size 0 (disassemble code) := tiles_disassembleFrom (Nat.zero_le _)
  exact ⟨htiles, htiles.pairwise, fun _ => decode?_of_mem, fun _ => not_isTruncated_of_mem_dropLast,
    listedBytes?_listing code⟩

end LispMachine
