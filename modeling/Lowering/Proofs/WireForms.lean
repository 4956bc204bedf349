import Lowering.Env.Basic
import Lowering.Proofs.Utf8Text
import Lowering.Tag
import Mathlib

/-!
# Wire forms can be taken apart

The first byte of a head tells its kind and how many bytes follow it, so a head ends where its
bytes say, and its count tells where a text or a map ends. `PrefixFree` is put together from
these parts: heads, then items, fields and maps, and from maps tags and bindings.
-/

namespace Lowering

namespace Wire

/-- The bytes of a value that satisfies `valid` tell which value it is and where they end,
whatever follows them. -/
def PrefixFree {α : Type} (valid : α → Prop) (bytes : α → Bytes) : Prop :=
  ∀ a b, valid a → valid b → ∀ rest rest',
    bytes a ++ rest = bytes b ++ rest' → a = b ∧ rest = rest'

namespace PrefixFree

variable {α β : Type} {p : α → Prop} {f : α → Bytes} {q : β → Prop} {g : β → Bytes}

/-- Values that are told apart by others are told apart by the bytes of those. -/
theorem comp (h : PrefixFree p f) {view : β → α} (hvalid : ∀ b, q b → p (view b))
    (hinj : ∀ b c, q b → q c → view b = view c → b = c) :
    PrefixFree q fun b => f (view b) := by
  intro b c hb hc rest rest' heq
  obtain ⟨hview, hrest⟩ := h (view b) (view c) (hvalid b hb) (hvalid c hc) rest rest' heq
  exact ⟨hinj b c hb hc hview, hrest⟩

theorem append (hf : PrefixFree p f) (hg : PrefixFree q g) :
    PrefixFree (fun x : α × β => p x.1 ∧ q x.2) fun x => f x.1 ++ g x.2 := by
  rintro ⟨a, b⟩ ⟨c, d⟩ ⟨ha, hb⟩ ⟨hc, hd⟩ rest rest' heq
  rw [List.append_assoc, List.append_assoc] at heq
  obtain ⟨rfl, hsecond⟩ := hf a c ha hc _ _ heq
  obtain ⟨rfl, hrest⟩ := hg b d hb hd _ _ hsecond
  exact ⟨rfl, hrest⟩

/-- As many values on both sides, one after the other, are the same. -/
theorem flatMap (h : PrefixFree p f) {xs ys : List α} (hlength : xs.length = ys.length)
    (hxs : ∀ x ∈ xs, p x) (hys : ∀ y ∈ ys, p y) {rest rest' : Bytes}
    (heq : xs.flatMap f ++ rest = ys.flatMap f ++ rest') : xs = ys ∧ rest = rest' := by
  induction xs generalizing ys with
  | nil =>
      obtain rfl := List.length_eq_zero_iff.mp hlength.symm
      exact ⟨rfl, heq⟩
  | cons x xs ih =>
      cases ys with
      | nil => cases hlength
      | cons y ys =>
          rw [List.flatMap_cons, List.flatMap_cons, List.append_assoc, List.append_assoc] at heq
          obtain ⟨rfl, htail⟩ := h x y (hxs x List.mem_cons_self) (hys y List.mem_cons_self) _ _ heq
          obtain ⟨rfl, hrest⟩ := ih (Nat.succ.inj hlength)
            (fun z hz => hxs z (List.mem_cons_of_mem x hz))
            (fun z hz => hys z (List.mem_cons_of_mem x hz)) htail
          exact ⟨rfl, hrest⟩

end PrefixFree

/-- The low bits of the first byte of a head with count `n`. -/
def low (n : Nat) : Nat :=
  if n < 24 then n
  else if n < 0x100 then 24
  else if n < 0x10000 then 25
  else if n < 0x100000000 then 26
  else 27

/-- The number of bytes after a first byte with the given low bits. -/
def width : Nat → Nat
  | 24 => 1
  | 25 => 2
  | 26 => 4
  | 27 => 8
  | _ => 0

theorem width_of_lt {n : Nat} (h : n < 24) : width n = 0 := by
  unfold width
  split <;> omega

theorem head_eq (kind : Kind) (n : Nat) :
    head kind n = lead kind (low n) :: bigEndian (width (low n)) n := by
  unfold head low
  split_ifs with h
  · rw [width_of_lt h]; rfl
  all_goals rfl

theorem low_lt (n : Nat) : low n < 32 := by
  unfold low
  split_ifs <;> omega

/-- A count stands in the first byte, or fits the bytes that follow it. -/
theorem low_cases {n : Nat} (h : n < 2 ^ 64) :
    (low n < 24 ∧ low n = n) ∨ (24 ≤ low n ∧ n < 256 ^ width (low n)) := by
  unfold low
  split_ifs with h₁ h₂ h₃ h₄
  · exact .inl ⟨h₁, rfl⟩
  all_goals exact .inr ⟨by decide, by simp only [width]; omega⟩

theorem Kind.code_injective {k l : Kind} (h : k.code = l.code) : k = l := by
  cases k <;> cases l <;> simp_all [code]

theorem lead_injective {k l : Kind} {m n : Nat} (hm : m < 32) (hn : n < 32)
    (h : lead k m = lead l n) : k = l ∧ m = n := by
  have hcode : ∀ kind : Kind, kind.code < 8 := by
    intro kind
    cases kind <;> decide
  have hk := hcode k
  have hl := hcode l
  have hbyte := congrArg UInt8.toNat h
  rw [lead, lead, UInt8.toNat_ofNat', UInt8.toNat_ofNat'] at hbyte
  exact ⟨Kind.code_injective (by omega), by omega⟩

theorem length_bigEndian (w n : Nat) : (bigEndian w n).length = w := by
  induction w generalizing n with
  | zero => rfl
  | succ w ih => rw [bigEndian, List.length_append, ih]; rfl

theorem bigEndian_injective {w m n : Nat} (hm : m < 256 ^ w) (hn : n < 256 ^ w)
    (h : bigEndian w m = bigEndian w n) : m = n := by
  induction w generalizing m n with
  | zero => omega
  | succ w ih =>
      rw [bigEndian, bigEndian] at h
      obtain ⟨hhigh, hlast⟩ := List.append_inj' h rfl
      have hbyte := congrArg UInt8.toNat (List.cons.inj hlast).1
      rw [UInt8.toNat_ofNat', UInt8.toNat_ofNat'] at hbyte
      rw [Nat.pow_succ] at hm hn
      have hdiv : m / 256 = n / 256 := ih (by omega) (by omega) hhigh
      omega

/-- The low bits of the first byte, and the bytes after it, tell the count. -/
theorem eq_of_low {m n : Nat} (hm : m < 2 ^ 64) (hn : n < 2 ^ 64) (hlow : low m = low n)
    (hbytes : bigEndian (width (low m)) m = bigEndian (width (low n)) n) : m = n := by
  rcases low_cases hm with ⟨hsmall, hm'⟩ | ⟨hlarge, hm'⟩
  · rcases low_cases hn with ⟨-, hn'⟩ | ⟨hlarge, -⟩
    · rw [← hm', hlow, hn']
    · omega
  · rcases low_cases hn with ⟨hsmall, -⟩ | ⟨-, hn'⟩
    · omega
    · rw [← hlow] at hn' hbytes
      exact bigEndian_injective hm' hn' hbytes

/-- Heads tell their kind and their count. -/
theorem prefixFree_head :
    PrefixFree (fun p : Kind × Nat => p.2 < 2 ^ 64) fun p => head p.1 p.2 := by
  rintro ⟨k, m⟩ ⟨l, n⟩ hm hn rest rest' heq
  simp only [head_eq, List.cons_append] at heq
  obtain ⟨hlead, htail⟩ := List.cons.inj heq
  obtain ⟨rfl, hlow⟩ := lead_injective (low_lt m) (low_lt n) hlead
  obtain ⟨hbytes, hrest⟩ := List.append_inj htail (by rw [length_bigEndian, length_bigEndian, hlow])
  exact ⟨congrArg (Prod.mk k) (eq_of_low hm hn hlow hbytes), hrest⟩

/-- The length of a text is a 64-bit word. -/
def Short (s : String) : Prop := (Utf8.encode s.toList).length < 2 ^ 64

instance (s : String) : Decidable (Short s) := inferInstanceAs (Decidable (_ < _))

namespace Item

/-- The kind and the count of an item. -/
def count : Item → Kind × Nat
  | .int v =>
    if v.toInt < 0 then (.negative, (1 - v.toInt).toNat) else (.nonnegative, v.toInt.toNat)
  | .string s => (.string, (Utf8.encode s.toList).length)

/-- What follows the head of an item. -/
def payload : Item → Bytes
  | .int _ => []
  | .string s => Utf8.encode s.toList

def Fits : Item → Prop
  | .int _ => True
  | .string s => Short s

theorem bytes_eq (i : Item) : i.bytes = head i.count.1 i.count.2 ++ i.payload := by
  cases i with
  | int v =>
      rw [bytes, Wire.int, count, payload, List.append_nil]
      split_ifs <;> rfl
  | string s => rfl

theorem Fits.count_lt {i : Item} (h : i.Fits) : i.count.2 < 2 ^ 64 := by
  cases i with
  | int v =>
      have hmin := v.le_toInt
      have hmax := v.toInt_lt
      rw [count]
      split_ifs <;> simp only <;> omega
  | string s => exact h

theorem count_int_injective {v w : Int64} (h : (int v).count = (int w).count) : v = w := by
  apply Int64.toInt_inj.mp
  rw [count, count] at h
  split_ifs at h with hv hw hw
  · have hcount := (Prod.mk.inj h).2
    omega
  · cases (Prod.mk.inj h).1
  · cases (Prod.mk.inj h).1
  · have hcount := (Prod.mk.inj h).2
    omega

theorem count_int_ne (v : Int64) (s : String) : (int v).count ≠ (string s).count := by
  rw [count, count]
  split_ifs <;> simp

/-- Items with the same head are alike but for the text that follows. -/
theorem eq_of_count {i j : Item} (hcount : i.count = j.count) :
    i.payload.length = j.payload.length ∧ (i.payload = j.payload → i = j) := by
  cases i with
  | int v =>
      cases j with
      | int w => exact ⟨rfl, fun _ => by rw [count_int_injective hcount]⟩
      | string s => exact absurd hcount (count_int_ne v s)
  | string s =>
      cases j with
      | int w => exact absurd hcount.symm (count_int_ne w s)
      | string t =>
          refine ⟨(Prod.mk.inj hcount).2, fun htext => ?_⟩
          have hchars : s.toList = t.toList := by
            rw [← Utf8.decode_encode s.toList, ← Utf8.decode_encode t.toList]
            exact congrArg Utf8.decode htext
          rw [String.toList_inj.mp hchars]

end Item

theorem prefixFree_item : PrefixFree Item.Fits Item.bytes := by
  intro i j hi hj rest rest' heq
  rw [i.bytes_eq, j.bytes_eq, List.append_assoc, List.append_assoc] at heq
  obtain ⟨hcount, htail⟩ := prefixFree_head i.count j.count hi.count_lt hj.count_lt _ _ heq
  obtain ⟨hlength, hitem⟩ := Item.eq_of_count hcount
  obtain ⟨hpayload, hrest⟩ := List.append_inj htail hlength
  exact ⟨hitem hpayload, hrest⟩

/-- A key is written as an item that is a text. -/
theorem prefixFree_string : PrefixFree Short string :=
  prefixFree_item.comp (fun _ h => h) fun _ _ _ _ h => Item.string.inj h

/-- The bytes of a map. -/
def mapBytes (fields : List (String × Item)) : Bytes :=
  head .map fields.length ++ fields.flatMap fun p => string p.1 ++ p.2.bytes

/-- A map is written behind what is in the buffer. -/
theorem appendMap_eq (buffer : Bytes) (fields : List (String × Item)) :
    appendMap buffer fields = buffer ++ mapBytes fields := by
  have hfold : ∀ (fields : List (String × Item)) (written : Bytes),
      fields.foldl (fun written p => written ++ string p.1 ++ p.2.bytes) written =
        written ++ fields.flatMap fun p => string p.1 ++ p.2.bytes := by
    intro fields
    induction fields with
    | nil => intro written; exact (List.append_nil written).symm
    | cons p fields ih =>
        intro written
        rw [List.foldl_cons, ih, List.flatMap_cons]
        simp only [List.append_assoc]
  exact (hfold fields _).trans (List.append_assoc _ _ _)

theorem appendMap_eq_append (buffer : Bytes) (fields : List (String × Item)) :
    appendMap buffer fields = buffer ++ appendMap [] fields := by
  rw [appendMap_eq, appendMap_eq, List.nil_append]

/-- All counts in a map are 64-bit words. -/
def FieldsFit (fields : List (String × Item)) : Prop :=
  fields.length < 2 ^ 64 ∧ ∀ p ∈ fields, Short p.1 ∧ p.2.Fits

theorem fieldsFit_pair {k l : String} {i j : Item} (hk : Short k ∧ i.Fits) (hl : Short l ∧ j.Fits) :
    FieldsFit [(k, i), (l, j)] := by
  refine ⟨by simp, ?_⟩
  simp only [List.forall_mem_cons]
  exact ⟨hk, hl, List.forall_mem_nil _⟩

theorem prefixFree_map : PrefixFree FieldsFit mapBytes := by
  intro fields fields' h h' rest rest' heq
  rw [mapBytes, mapBytes, List.append_assoc, List.append_assoc] at heq
  obtain ⟨hcount, htail⟩ :=
    prefixFree_head (.map, fields.length) (.map, fields'.length) h.1 h'.1 _ _ heq
  exact (prefixFree_string.append prefixFree_item).flatMap (Prod.mk.inj hcount).2 h.2 h'.2 htail

/-- Values that are told apart by their fields are told apart by the map of them. -/
theorem prefixFree_appendMap {α : Type} {valid : α → Prop} {fields : α → List (String × Item)}
    (hfits : ∀ a, valid a → FieldsFit (fields a))
    (hinj : ∀ a b, valid a → valid b → fields a = fields b → a = b) :
    PrefixFree valid fun a => appendMap [] (fields a) := by
  have hbytes : (fun a => appendMap [] (fields a)) = fun a => mapBytes (fields a) :=
    funext fun a => appendMap_eq [] (fields a)
  rw [hbytes]
  exact prefixFree_map.comp hfits hinj

end Wire

/-- The number is a 64-bit word. -/
def IsWord (n : Int) : Prop := -2 ^ 63 ≤ n ∧ n < 2 ^ 63

/-- The numbers of a tag are 64-bit words. -/
def Tag.Fits (t : Tag) : Prop := IsWord t.id ∧ IsWord t.size

/-- The index of a binding, and the lengths of its texts, are 64-bit words. -/
def Binding.Fits : Binding → Prop
  | .register name reg => Wire.Short name ∧ Wire.Short reg.text
  | .enclosed name index => Wire.Short name ∧ IsWord index

instance (n : Int) : Decidable (IsWord n) := inferInstanceAs (Decidable (_ ∧ _))

instance (t : Tag) : Decidable t.Fits := inferInstanceAs (Decidable (_ ∧ _))

instance : ∀ b : Binding, Decidable b.Fits
  | .register _ _ => inferInstanceAs (Decidable (_ ∧ _))
  | .enclosed _ _ => inferInstanceAs (Decidable (_ ∧ _))

/-- Words that are moved by the same distance, around the end of the range, stay apart. -/
theorem IsWord.eq_of_ofInt_add {m n : Int} (hm : IsWord m) (hn : IsWord n) {d : Int}
    (h : Int64.ofInt (m + d) = Int64.ofInt (n + d)) : m = n := by
  obtain ⟨hm₁, hm₂⟩ := hm
  obtain ⟨hn₁, hn₂⟩ := hn
  have hsize : (Int64.size : Int) = 2 ^ 64 := rfl
  have hmod := congrArg Int64.toInt h
  rw [Int64.toInt_ofInt, Int64.toInt_ofInt, Int.bmod_def, Int.bmod_def, hsize] at hmod
  split_ifs at hmod <;> omega

theorem IsWord.eq_of_ofInt {m n : Int} (hm : IsWord m) (hn : IsWord n)
    (h : Int64.ofInt m = Int64.ofInt n) : m = n :=
  hm.eq_of_ofInt_add hn (d := 0) (by rwa [Int.add_zero, Int.add_zero])

namespace Tag

theorem append_eq (buffer : Wire.Bytes) (t : Tag) : t.append buffer = buffer ++ t.wire :=
  Wire.appendMap_eq_append buffer t.fields

theorem fieldsFit (t : Tag) : Wire.FieldsFit t.fields :=
  Wire.fieldsFit_pair ⟨by decide, trivial⟩ ⟨by decide, trivial⟩

theorem eq_of_fields {t u : Tag} (ht : t.Fits) (hu : u.Fits) (h : t.fields = u.fields) :
    t = u := by
  obtain ⟨id, size⟩ := t
  obtain ⟨id', size'⟩ := u
  obtain ⟨hid, hsize⟩ :
      Int64.ofInt id = Int64.ofInt id' ∧ Int64.ofInt size = Int64.ofInt size' := by
    simpa [fields] using h
  rw [Tag.mk.injEq]
  exact ⟨ht.1.eq_of_ofInt hu.1 hid, ht.2.eq_of_ofInt hu.2 hsize⟩

theorem prefixFree_wire : Wire.PrefixFree Fits wire :=
  Wire.prefixFree_appendMap (fun t _ => fieldsFit t) fun _ _ => eq_of_fields

end Tag

namespace Binding

theorem append_eq (buffer : Wire.Bytes) (b : Binding) : b.append buffer = buffer ++ b.wire :=
  Wire.appendMap_eq_append buffer b.fields

theorem Fits.fieldsFit {b : Binding} (h : b.Fits) : Wire.FieldsFit b.fields := by
  cases b with
  | register name reg => exact Wire.fieldsFit_pair ⟨by decide, h.1⟩ ⟨by decide, h.2⟩
  | enclosed name index => exact Wire.fieldsFit_pair ⟨by decide, h.1⟩ ⟨by decide, trivial⟩

/-- The key of the second field tells a register from a slot. -/
theorem eq_of_fields {b c : Binding} (hb : b.Fits) (hc : c.Fits) (h : b.fields = c.fields) :
    b = c := by
  cases b with
  | register name reg =>
      cases c with
      | register name' reg' =>
          obtain ⟨hname, hreg⟩ : name = name' ∧ reg.text = reg'.text := by simpa [fields] using h
          rw [hname, show reg = reg' from congrArg Reg.mk hreg]
      | enclosed name' index' => simp [fields] at h
  | enclosed name index =>
      cases c with
      | register name' reg' => simp [fields] at h
      | enclosed name' index' =>
          obtain ⟨hname, hslot⟩ : name = name' ∧
              Int64.ofInt (captureSlot index) = Int64.ofInt (captureSlot index') := by
            simpa [fields] using h
          rw [hname, hb.2.eq_of_ofInt_add hc.2 hslot]

theorem prefixFree_wire : Wire.PrefixFree Fits wire :=
  Wire.prefixFree_appendMap (fun _ => Fits.fieldsFit) fun _ _ => eq_of_fields

end Binding

/-- What is written of a tag or of a binding stands behind what is in the buffer, and does not
depend on it. Its bytes tell the value, and where they end, among all tags, and among all
bindings of both kinds. -/
theorem wire_uniquely_decodable :
    (∀ buffer (t : Tag), t.append buffer = buffer ++ t.wire) ∧
      (∀ buffer (b : Binding), b.append buffer = buffer ++ b.wire) ∧
      (∀ t u : Tag, t.Fits → u.Fits → ∀ rest rest' : Wire.Bytes,
        t.wire ++ rest = u.wire ++ rest' → t = u ∧ rest = rest') ∧
      ∀ b c : Binding, b.Fits → c.Fits → ∀ rest rest' : Wire.Bytes,
        b.wire ++ rest = c.wire ++ rest' → b = c ∧ rest = rest' :=
  ⟨Tag.append_eq, Binding.append_eq, Tag.prefixFree_wire, Binding.prefixFree_wire⟩

/-- The least id and its neighbour, whose counts differ by one, are told apart, and so are the
slots on both sides of the end of the range, and a slot and a register with the same name. -/
theorem wire_uniquely_decodable_extremes :
    Tag.Fits ⟨-2 ^ 63, 24⟩ ∧ Tag.Fits ⟨-2 ^ 63 + 1, 24⟩ ∧
      (∀ rest rest', Tag.wire ⟨-2 ^ 63, 24⟩ ++ rest ≠ Tag.wire ⟨-2 ^ 63 + 1, 24⟩ ++ rest') ∧
      Binding.Fits (.enclosed "x" (2 ^ 63 - 1)) ∧ Binding.Fits (.enclosed "x" (2 ^ 63 - 3)) ∧
      Binding.Fits (.register "x" ⟨"$r1"⟩) ∧
      (∀ rest rest', Binding.wire (.enclosed "x" (2 ^ 63 - 1)) ++ rest ≠
        Binding.wire (.enclosed "x" (2 ^ 63 - 3)) ++ rest') ∧
      ∀ rest rest', Binding.wire (.enclosed "x" (2 ^ 63 - 1)) ++ rest ≠
        Binding.wire (.register "x" ⟨"$r1"⟩) ++ rest' := by
  obtain ⟨-, -, htag, hbinding⟩ := wire_uniquely_decodable
  have hleast : Tag.Fits ⟨-2 ^ 63, 24⟩ := by decide
  have hnext : Tag.Fits ⟨-2 ^ 63 + 1, 24⟩ := by decide
  have hlast : Binding.Fits (.enclosed "x" (2 ^ 63 - 1)) := by decide
  have hbefore : Binding.Fits (.enclosed "x" (2 ^ 63 - 3)) := by decide
  have hregister : Binding.Fits (.register "x" ⟨"$r1"⟩) := by decide
  refine ⟨hleast, hnext, ?_, hlast, hbefore, hregister, ?_, ?_⟩
  · intro rest rest' heq
    exact absurd (htag _ _ hleast hnext rest rest' heq).1 (by decide)
  · intro rest rest' heq
    exact absurd (hbinding _ _ hlast hbefore rest rest' heq).1 (by decide)
  · intro rest rest' heq
    exact absurd (hbinding _ _ hlast hregister rest rest' heq).1 (by decide)

end Lowering
