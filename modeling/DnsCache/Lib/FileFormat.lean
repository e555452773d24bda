import DnsCache.Lib.ByteFile

/-! # Formats of files

A format is written item by item, each behind the one before, and read back the
same way. A writer stops at the first item the device does not take, a reader at
the first that is not there.

* `Writer`, `Writes w bs`: the writer puts `bs` into the file, as far as there is room.
* `Reader`, `Reads rd a bs`: the reader makes `a` of `bs`, and nothing of less.
* `Writes.item`, `Writes.seq`, `Writes.each`: the rules for writers.
* `Reads.items`, `Reads.bind`, `Reads.map`, `Reads.loop`, `Reads.collect`,
  `Reads.orSeek`: the rules for readers.
* `Writes.read`: what was written is read back.
* `be32`, `be16`: words with the high byte first.
-/

namespace CMem

/-! ## Words with the high byte first -/

def be32 (w : UInt32) : List UInt8 :=
  [(w >>> 24).toUInt8, (w >>> 16).toUInt8, (w >>> 8).toUInt8, w.toUInt8]

def be16 (w : UInt16) : List UInt8 := [(w >>> 8).toUInt8, w.toUInt8]

/-- The word that the bytes stand for. -/
def ofBe32 (buff : List UInt8) : UInt32 :=
  ((buff.getD 0 0).toUInt32 <<< 24) ||| ((buff.getD 1 0).toUInt32 <<< 16) |||
    ((buff.getD 2 0).toUInt32 <<< 8) ||| (buff.getD 3 0).toUInt32

def ofBe16 (buff : List UInt8) : UInt16 :=
  ((buff.getD 0 0).toUInt16 <<< 8) ||| (buff.getD 1 0).toUInt16

/-- Bits that do not overlap are added. -/
theorem shiftLeft_or {a b k : Nat} (hb : b < 2 ^ k) : a <<< k ||| b = a * 2 ^ k + b := by
  rw [← Nat.shiftLeft_add_eq_or_of_lt hb, Nat.shiftLeft_eq]

theorem ofBe32_be32 (w : UInt32) : ofBe32 (be32 w) = w := by
  have hw : w.toNat < 4294967296 := w.toNat_lt
  apply UInt32.toNat_inj.mp
  have h24 : (24 : UInt32).toNat = 24 := rfl
  have h16 : (16 : UInt32).toNat = 16 := rfl
  have h8 : (8 : UInt32).toNat = 8 := rfl
  simp only [ofBe32, be32, List.getD_cons_zero, List.getD_cons_succ, UInt32.toNat_or,
    UInt32.toNat_shiftLeft, UInt8.toNat_toUInt32, UInt32.toNat_toUInt8, UInt32.toNat_shiftRight,
    h24, h16, h8, Nat.shiftRight_eq_div_pow, Nat.reduceMod, Nat.reducePow]
  -- the highest byte first
  have hor : ∀ a b c d : Nat, a < 256 → b < 256 → c < 256 → d < 256 →
      (a <<< 24) % 4294967296 ||| (b <<< 16) % 4294967296 ||| (c <<< 8) % 4294967296 ||| d =
        a * 16777216 + b * 65536 + c * 256 + d := by
    intro a b c d ha hb hc hd
    have ha' : a <<< 24 % 4294967296 = a <<< 24 := Nat.mod_eq_of_lt (by rw [Nat.shiftLeft_eq]; omega)
    have hb' : b <<< 16 % 4294967296 = b <<< 16 := Nat.mod_eq_of_lt (by rw [Nat.shiftLeft_eq]; omega)
    have hc' : c <<< 8 % 4294967296 = c <<< 8 := Nat.mod_eq_of_lt (by rw [Nat.shiftLeft_eq]; omega)
    have h₁ : c <<< 8 ||| d = c * 256 + d := shiftLeft_or (k := 8) hd
    have h₂ : b <<< 16 ||| (c * 256 + d) = b * 65536 + (c * 256 + d) :=
      shiftLeft_or (k := 16) (by omega)
    have h₃ : a <<< 24 ||| (b * 65536 + (c * 256 + d)) = a * 16777216 + (b * 65536 + (c * 256 + d)) :=
      shiftLeft_or (k := 24) (by omega)
    rw [ha', hb', hc', Nat.or_assoc, Nat.or_assoc, h₁, h₂, h₃]
    omega
  rw [hor _ _ _ _ (by omega) (by omega) (by omega) (by omega)]
  omega

theorem ofBe16_be16 (w : UInt16) : ofBe16 (be16 w) = w := by
  have hw : w.toNat < 65536 := w.toNat_lt
  apply UInt16.toNat_inj.mp
  have h8 : (8 : UInt16).toNat = 8 := rfl
  simp only [ofBe16, be16, List.getD_cons_zero, List.getD_cons_succ, UInt16.toNat_or,
    UInt16.toNat_shiftLeft, UInt8.toNat_toUInt16, UInt16.toNat_toUInt8, UInt16.toNat_shiftRight,
    h8, Nat.shiftRight_eq_div_pow, Nat.reduceMod, Nat.reducePow]
  have hor : ∀ a b : Nat, a < 256 → b < 256 → (a <<< 8) % 65536 ||| b = a * 256 + b := by
    intro a b ha hb
    rw [Nat.mod_eq_of_lt (by rw [Nat.shiftLeft_eq]; omega)]
    exact shiftLeft_or (k := 8) hb
  rw [hor _ _ (by omega) (by omega)]
  omega

/-! ## Writers -/

/-- Writes to a file, and says whether all of it went in. -/
abbrev Writer := ByteFile → Bool × ByteFile

namespace Writer

/-- One call of `fwrite` that is to take all items. -/
def item (size : Nat) (bs : List UInt8) : Writer := fun f =>
  match f.fwrite size bs with
  | (n, f) => (decide (n = bs.length / size), f)

/-- One writer behind the other. -/
def seq (w₁ w₂ : Writer) : Writer := fun f =>
  match w₁ f with
  | (true, f) => w₂ f
  | (false, f) => (false, f)

/-- A loop of writers. -/
def each {α : Type} (w : α → Writer) : List α → Writer
  | [] => fun f => (true, f)
  | a :: as => seq (w a) (each w as)

end Writer

/-- The bytes are put at the position. -/
structure Wrote (f f' : ByteFile) (bs : List UInt8) : Prop where
  pos : f'.pos = f.pos + bs.length
  front : f'.bytes.take f'.pos = f.bytes.take f.pos ++ bs
  back : f'.bytes.drop f'.pos = f.bytes.drop f'.pos
  le : f'.pos ≤ f'.bytes.length
  room : f'.room = f.room - bs.length

/-- The writer puts these bytes into the file as far as there is room for them, and says
whether that is all of them. -/
def Writes (w : Writer) (bs : List UInt8) : Prop :=
  ∀ f : ByteFile, f.pos ≤ f.bytes.length →
    ((w f).1 = true ↔ bs.length ≤ f.room) ∧ Wrote f (w f).2 (bs.take f.room)

variable {w w₁ w₂ : Writer} {bs x y : List UInt8} {f f' f'' : ByteFile}

theorem Wrote.refl (h : f.pos ≤ f.bytes.length) : Wrote f f [] := ⟨rfl, by simp, rfl, h, rfl⟩

theorem Wrote.trans (h : Wrote f f' x) (h' : Wrote f' f'' y) : Wrote f f'' (x ++ y) where
  pos := by rw [h'.pos, h.pos, List.length_append, Nat.add_assoc]
  front := by rw [h'.front, h.front, List.append_assoc]
  back := by rw [h'.back, h'.pos, ← List.drop_drop, h.back, List.drop_drop]
  le := h'.le
  room := by rw [h'.room, h.room, List.length_append, Nat.sub_sub]

theorem wrote_fwrite (size : Nat) (bs : List UInt8) (h : f.pos ≤ f.bytes.length) :
    Wrote f (f.fwrite size bs).2 (bs.take f.room) := by
  simp only [ByteFile.fwrite]
  generalize bs.take f.room = taken
  by_cases hnil : taken = []
  · rw [hnil]
    exact ⟨rfl, by simp, rfl, h, rfl⟩
  · rw [if_neg hnil, ByteFile.padded_of_le h]
    have hfront : (f.bytes.take f.pos ++ taken).length = f.pos + taken.length := by
      rw [List.length_append, List.length_take_of_le h]
    refine ⟨rfl, ?_, ?_, ?_, rfl⟩
    · simp only [patch]
      rw [← hfront, List.take_left]
    · simp only [patch]
      rw [← hfront, List.drop_left]
    · simp only
      rw [patch_length h]
      exact Nat.le_max_right _ _

theorem Writes.nil : Writes (fun f => (true, f)) [] := fun _ hf =>
  ⟨iff_of_true rfl (Nat.zero_le _), by rw [List.take_nil]; exact .refl hf⟩

theorem Writes.item {size : Nat} (count : Nat) (hsize : 0 < size) (hlen : bs.length = size * count) :
    Writes (Writer.item size bs) bs := by
  intro f hf
  refine ⟨?_, wrote_fwrite size bs hf⟩
  have hitems : bs.length / size = count := by rw [hlen, Nat.mul_div_cancel_left _ hsize]
  simp only [Writer.item, ByteFile.fwrite, decide_eq_true_eq, hitems, List.length_take]
  constructor
  · intro heq
    by_contra hroom
    rw [Nat.min_eq_left (by omega)] at heq
    have hlt : f.room / size < count := by
      rw [Nat.div_lt_iff_lt_mul hsize, Nat.mul_comm]
      omega
    omega
  · intro hroom
    rw [Nat.min_eq_right hroom, hitems]

theorem Writes.seq (h₁ : Writes w₁ x) (h₂ : Writes w₂ y) : Writes (Writer.seq w₁ w₂) (x ++ y) := by
  intro f hf
  rcases h₁ f hf with ⟨hok, hout⟩
  rw [Writer.seq, List.length_append, List.take_append]
  rcases hr : w₁ f with ⟨b, f'⟩
  rw [hr] at hok hout
  cases b with
  | false =>
      -- the first part is cut off, the second not begun
      have hroom : ¬ x.length ≤ f.room := fun hle => absurd (hok.mpr hle) Bool.false_ne_true
      rw [Nat.sub_eq_zero_of_le (by omega), List.take_zero, List.append_nil]
      exact ⟨iff_of_false (by simp) (by omega), hout⟩
  | true =>
      have hroom : x.length ≤ f.room := hok.mp rfl
      rw [List.take_of_length_le hroom] at hout ⊢
      have hrest : f'.room = f.room - x.length := hout.room
      rcases h₂ f' hout.le with ⟨hok', hout'⟩
      rw [hrest] at hok' hout'
      refine ⟨?_, hout.trans hout'⟩
      rw [hok']
      omega

theorem Writes.each {α : Type} {w : α → Writer} {image : α → List UInt8} {as : List α}
    (h : ∀ a ∈ as, Writes (w a) (image a)) : Writes (Writer.each w as) (as.flatMap image) := by
  induction as with
  | nil => exact .nil
  | cons a as ih =>
      rw [List.flatMap_cons]
      exact (h a List.mem_cons_self).seq (ih fun b hb => h b (List.mem_cons_of_mem _ hb))

/-- A writer that does not fail has written everything. -/
theorem Writes.all (h : Writes w bs) (hf : f.pos ≤ f.bytes.length) (hok : (w f).1 = true) :
    Wrote f (w f).2 bs := by
  rcases h f hf with ⟨hiff, hwrote⟩
  rwa [List.take_of_length_le (hiff.mp hok)] at hwrote

/-- What was written stands at the old position. -/
theorem Wrote.drop (h : Wrote f f' bs) : f'.bytes.drop f.pos = bs ++ f'.bytes.drop f'.pos := by
  have hpos : f.pos ≤ f'.bytes.length := by
    have := h.le
    have := h.pos
    omega
  have hsplit : f'.bytes = f.bytes.take f.pos ++ (bs ++ f'.bytes.drop f'.pos) := by
    rw [← List.append_assoc, ← h.front, List.take_append_drop]
  have hlen : (f.bytes.take f.pos).length = f.pos := by
    have hfront := congrArg List.length h.front
    have hpos' := h.pos
    rw [List.length_append, List.length_take_of_le h.le] at hfront
    omega
  rw [hsplit, List.drop_left' hlen]
  congr 1
  rw [← hsplit]

/-! ## Readers -/

/-- Reads from a file, or fails. -/
abbrev Reader (α : Type) := ByteFile → Option α × ByteFile

namespace Reader

variable {α β σ : Type}

def pure (a : α) : Reader α := fun f => (some a, f)

def fail : Reader α := fun f => (none, f)

def bind (rd : Reader α) (k : α → Reader β) : Reader β := fun f =>
  match rd f with
  | (some a, f) => k a f
  | (none, f) => (none, f)

/-- A loop of so many rounds. -/
def loop (body : σ → Reader σ) : Nat → σ → Reader σ
  | 0, s => pure s
  | n + 1, s => bind (body s) (loop body n)

/-- One call of `fread` that is to store all items. -/
def items (size count : Nat) : Reader (List UInt8) := fun f =>
  match f.fread size count with
  | (buff, n, f) => if n = count then (some buff, f) else (none, f)

/-- After a failure the file is positioned where it was. -/
def orSeek (rd : Reader α) : Reader α := fun f =>
  match rd f with
  | (some a, f') => (some a, f')
  | (none, f') => (none, (f'.fseek f.pos).2)

/-- Only the position changes. -/
def Keeps (rd : Reader α) : Prop := ∀ f, (rd f).2.bytes = f.bytes ∧ (rd f).2.room = f.room

end Reader

open Reader

variable {α β σ : Type} {rd : Reader α} {k : α → Reader β} {a : α} {b : β}

/-- The reader makes `a` of the bytes, and nothing of a beginning of them. -/
structure Reads (rd : Reader α) (a : α) (bs : List UInt8) : Prop where
  whole : ∀ {f : ByteFile} {rest : List UInt8}, f.bytes.drop f.pos = bs ++ rest →
    rd f = (some a, { f with pos := f.pos + bs.length })
  short : ∀ {f : ByteFile}, f.bytes.drop f.pos <+: bs → f.bytes.drop f.pos ≠ bs → (rd f).1 = none

theorem Reads.pure (a : α) : Reads (Reader.pure a) a [] :=
  ⟨fun _ => rfl, fun hpre hne => absurd (List.prefix_nil.mp hpre) hne⟩

theorem Reads.bind (h : Reads rd a x) (h' : Reads (k a) b y) : Reads (Reader.bind rd k) b (x ++ y) := by
  constructor
  · intro f rest hf
    rw [List.append_assoc] at hf
    have hdrop : f.bytes.drop (f.pos + x.length) = y ++ rest := by
      rw [← List.drop_drop, hf, List.drop_left]
    simp only [Reader.bind, h.whole hf]
    rw [h'.whole hdrop, List.length_append, Nat.add_assoc]
  · intro f hpre hne
    rcases List.prefix_or_prefix_of_prefix hpre (List.prefix_append x y) with hpre' | ⟨z, hz⟩
    · by_cases heq : f.bytes.drop f.pos = x
      · -- the first part is there, nothing of the second
        have hwhole := h.whole (heq.trans (List.append_nil x).symm)
        have hdrop : f.bytes.drop (f.pos + x.length) = [] := by
          rw [← List.drop_drop, heq, List.drop_length]
        simp only [Reader.bind, hwhole]
        refine h'.short (by simp only [hdrop]; exact List.nil_prefix) ?_
        rintro hy
        simp only [hdrop] at hy
        rw [heq, ← hy, List.append_nil] at hne
        exact hne rfl
      · simp only [Reader.bind]
        have hnone := h.short hpre' heq
        rcases hr : rd f with ⟨o, f'⟩
        rw [hr] at hnone
        cases hnone
        rfl
    · rw [← hz, List.prefix_append_right_inj] at hpre
      have hdrop : f.bytes.drop (f.pos + x.length) = z := by
        rw [← List.drop_drop, ← hz, List.drop_left]
      simp only [Reader.bind, h.whole hz.symm]
      refine h'.short (by simp only [hdrop]; exact hpre) ?_
      rintro hy
      simp only [hdrop] at hy
      rw [hy] at hz
      exact hne hz.symm

theorem Reads.map (h : Reads rd a x) (g : α → β) : Reads (Reader.bind rd fun a => .pure (g a)) (g a) x := by
  have hbind := h.bind (k := fun a => Reader.pure (g a)) (.pure (g a))
  rwa [List.append_nil] at hbind

theorem Reads.loop {body : σ → Reader σ} {step : σ → α → σ} {image : α → List UInt8} (as : List α)
    (h : ∀ s, ∀ a ∈ as, Reads (body s) (step s a) (image a)) (s : σ) :
    Reads (Reader.loop body as.length s) (as.foldl step s) (as.flatMap image) := by
  induction as generalizing s with
  | nil => exact .pure s
  | cons a as ih =>
      rw [List.length_cons, List.flatMap_cons, List.foldl_cons]
      exact (h s a List.mem_cons_self).bind (ih (fun s b hb => h s b (List.mem_cons_of_mem _ hb)) _)

/-- A loop that collects what it reads. -/
theorem Reads.collect {body : σ → Reader σ} {image : α → List UInt8} (mk : List β → σ) (g : α → β)
    (as : List α) (h : ∀ l, ∀ a ∈ as, Reads (body (mk l)) (mk (l ++ [g a])) (image a)) (l : List β) :
    Reads (Reader.loop body as.length (mk l)) (mk (l ++ as.map g)) (as.flatMap image) := by
  induction as generalizing l with
  | nil =>
      rw [List.map_nil, List.append_nil]
      exact .pure _
  | cons a as ih =>
      rw [List.length_cons, List.flatMap_cons, List.map_cons, ← List.singleton_append,
        ← List.append_assoc]
      exact (h l a List.mem_cons_self).bind (ih (fun l b hb => h l b (List.mem_cons_of_mem _ hb)) _)

theorem Reads.items {size count : Nat} (hsize : 0 < size) (hlen : bs.length = size * count) :
    Reads (Reader.items size count) bs bs := by
  constructor
  · intro f rest hf
    rw [Reader.items, ByteFile.fread_front hf hlen hsize, hlen]
    exact if_pos rfl
  · intro f hpre hne
    have hlt : (f.bytes.drop f.pos).length < size * count := by
      rw [← hlen]
      exact Nat.lt_of_le_of_ne hpre.length_le fun heq => hne (hpre.eq_of_length heq)
    rw [Reader.items, ByteFile.fread_short rfl (Nat.le_of_lt hlt)]
    have hdiv : (f.bytes.drop f.pos).length / size < count := by
      rw [Nat.div_lt_iff_lt_mul hsize, Nat.mul_comm]
      exact hlt
    simp only [if_neg (Nat.ne_of_lt hdiv)]

theorem Reads.orSeek (h : Reads rd a bs) : Reads (Reader.orSeek rd) a bs := by
  constructor
  · intro f rest hf
    rw [Reader.orSeek, h.whole hf]
  · intro f hpre hne
    have hnone := h.short hpre hne
    rw [Reader.orSeek]
    rcases hr : rd f with ⟨o, f'⟩
    rw [hr] at hnone
    cases hnone
    rfl

/-- What was written is read back. -/
theorem Writes.read (hw : Writes w bs) (hr : Reads rd a bs) (hf : f.pos ≤ f.bytes.length)
    (hok : (w f).1 = true) :
    rd { (w f).2 with pos := f.pos } = (some a, (w f).2) := by
  have hwrote := hw.all hf hok
  rw [hr.whole (f := { (w f).2 with pos := f.pos }) hwrote.drop]
  simp only [← hwrote.pos]

/-! ## Failures -/

theorem Reader.Keeps.pure (a : α) : Keeps (Reader.pure a) := fun _ => ⟨rfl, rfl⟩

theorem Reader.Keeps.fail : Keeps (Reader.fail : Reader α) := fun _ => ⟨rfl, rfl⟩

theorem Reader.Keeps.bind (h : Keeps rd) (h' : ∀ a, Keeps (k a)) : Keeps (Reader.bind rd k) := by
  intro f
  have hf := h f
  rw [Reader.bind]
  rcases hr : rd f with ⟨o, f'⟩
  rw [hr] at hf
  cases o with
  | none => exact hf
  | some a =>
      have hf' := h' a f'
      exact ⟨hf'.1.trans hf.1, hf'.2.trans hf.2⟩

theorem Reader.Keeps.loop {body : σ → Reader σ} (h : ∀ s, Keeps (body s)) (n : Nat) (s : σ) :
    Keeps (Reader.loop body n s) := by
  induction n generalizing s with
  | zero => exact .pure s
  | succ n ih => exact .bind (h s) ih

theorem Reader.Keeps.items (size count : Nat) : Keeps (Reader.items size count) := by
  intro f
  rw [Reader.items, ByteFile.fread]
  simp only
  split <;> exact ⟨rfl, rfl⟩

/-- A reader that goes back leaves the file as it was. -/
theorem orSeek_failed (h : Keeps rd) {f' : ByteFile} (hr : Reader.orSeek rd f = (none, f')) : f' = f := by
  have hf := h f
  rw [Reader.orSeek] at hr
  rcases hrd : rd f with ⟨o, g⟩
  rw [hrd] at hf hr
  cases o with
  | some a => cases hr
  | none =>
      have hseek := ByteFile.fseek_of_nonneg (Int.natCast_nonneg f.pos) g
      simp only [hseek, Prod.mk.injEq, true_and] at hr
      rw [← hr]
      rcases f with ⟨bytes, pos, room⟩
      rcases g with ⟨bytes', pos', room'⟩
      simp only [ByteFile.mk.injEq, Int.toNat_natCast] at hf ⊢
      exact ⟨hf.1, trivial, hf.2⟩

theorem Reader.Keeps.orSeek (h : Keeps rd) : Keeps (Reader.orSeek rd) := by
  intro f
  rcases hr : Reader.orSeek rd f with ⟨o, f'⟩
  cases o with
  | none => rw [orSeek_failed h hr]; exact ⟨rfl, rfl⟩
  | some a =>
      have hf := h f
      rw [Reader.orSeek] at hr
      rcases hrd : rd f with ⟨o, g⟩
      rw [hrd] at hf hr
      cases o with
      | none => cases hr
      | some b =>
          cases hr
          exact hf

end CMem
