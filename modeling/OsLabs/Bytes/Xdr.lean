import OsLabs.Bytes.Words
import Mathlib.Data.List.Basic

/-!
# XDR streams in memory

The part of the XDR library that routines made by `rpcgen` use, over a stream in memory: an
`int` and a `float` are words of four bytes, the most significant first, on a machine that
stores the least significant first. `XDR_INLINE` may hand out the next bytes of the stream
as a buffer; whether it does is left open (`Policy`). `xdrRecord` is the shape of a routine
for a structure that begins with several integers: it moves these through the buffer where
it gets one. It does the same as the plain calls (`xdrRecord_eq`). The bytes that a stream
sends do not depend on where it stands (`written_encode`), nor do the words that it receives
(`received_decode`), and these are the words that were sent (`unpacked_packed`).
-/

namespace OsLabs.Xdr

open Bytes

/-! ## Words in network order -/

/-- The number of four bytes, the most significant first. -/
def ofBytes (b₀ b₁ b₂ b₃ : ℕ) : ℕ := b₀ * 16777216 + b₁ * 65536 + b₂ * 256 + b₃

theorem bytes_ofBytes {b₀ b₁ b₂ b₃ : ℕ} (h₀ : b₀ < 256) (h₁ : b₁ < 256) (h₂ : b₂ < 256)
    (h₃ : b₃ < 256) : ofBytes b₀ b₁ b₂ b₃ % 256 = b₃ ∧ ofBytes b₀ b₁ b₂ b₃ / 256 % 256 = b₂ ∧
      ofBytes b₀ b₁ b₂ b₃ / 65536 % 256 = b₁ ∧ ofBytes b₀ b₁ b₂ b₃ / 16777216 % 256 = b₀ := by
  unfold ofBytes
  refine ⟨?_, ?_, ?_, ?_⟩
  all_goals omega

/-- The number with its four bytes the other way round. -/
def swapBytes (n : ℕ) : ℕ :=
  ofBytes (n % 256) (n / 256 % 256) (n / 65536 % 256) (n / 16777216 % 256)

theorem swapBytes_lt (n : ℕ) : swapBytes n < 2 ^ 32 := by
  unfold swapBytes ofBytes
  omega

theorem swapBytes_swapBytes {n : ℕ} (h : n < 2 ^ 32) : swapBytes (swapBytes n) = n := by
  have hbyte (k : ℕ) : k % 256 < 256 := Nat.mod_lt k (by decide)
  obtain ⟨h₀, h₁, h₂, h₃⟩ := bytes_ofBytes (hbyte n) (hbyte (n / 256)) (hbyte (n / 65536))
    (hbyte (n / 16777216))
  rw [swapBytes, swapBytes, h₀, h₁, h₂, h₃, ofBytes]
  omega

/-- `htonl`, and `ntohl`. -/
def htonl (w : UInt32) : UInt32 := UInt32.ofNat (swapBytes w.toNat)

theorem htonl_htonl (w : UInt32) : htonl (htonl w) = w := by
  have hmid : (htonl w).toNat = swapBytes w.toNat := by
    rw [htonl, UInt32.toNat_ofNat']
    exact Nat.mod_eq_of_lt (swapBytes_lt _)
  rw [htonl, hmid, swapBytes_swapBytes w.toNat_lt, UInt32.ofNat_toNat]

/-- The word in the four bytes from `a` on. -/
def loadLong (m : ℕ → UInt8) (a : ℕ) : UInt32 := htonl (UInt32.ofNat (loadWord m a 4))

def storeLong (m : ℕ → UInt8) (a : ℕ) (w : UInt32) : ℕ → UInt8 := storeWord m a (htonl w).toNat 4

theorem loadLong_storeLong (m : ℕ → UInt8) (a : ℕ) (w : UInt32) :
    loadLong (storeLong m a w) a = w := by
  have hlt : (htonl w).toNat < 256 ^ 4 := (htonl w).toNat_lt
  rw [loadLong, storeLong, loadWord_storeWord, Nat.mod_eq_of_lt hlt, UInt32.ofNat_toNat,
    htonl_htonl]

/-- The words from `a` on. -/
def loadLongs (m : ℕ → UInt8) (a : ℕ) : ℕ → List UInt32
  | 0 => []
  | k + 1 => loadLong m a :: loadLongs m (a + 4) k

def storeLongs (m : ℕ → UInt8) (a : ℕ) : List UInt32 → ℕ → UInt8
  | [] => m
  | w :: ws => storeLongs (storeLong m a w) (a + 4) ws

section Longs

variable {m m' : ℕ → UInt8} {a : ℕ}

@[simp] theorem length_loadLongs (k : ℕ) : (loadLongs m a k).length = k := by
  induction k generalizing a with
  | zero => rfl
  | succ k ih => rw [loadLongs, List.length_cons, ih]

theorem loadLongs_add (j k : ℕ) :
    loadLongs m a (j + k) = loadLongs m a j ++ loadLongs m (a + 4 * j) k := by
  induction j generalizing a with
  | zero => simp [loadLongs]
  | succ j ih =>
    rw [Nat.add_right_comm, loadLongs, ih, loadLongs, List.cons_append]
    congr 3
    omega

theorem storeLongs_append (us vs : List UInt32) :
    storeLongs m a (us ++ vs) = storeLongs (storeLongs m a us) (a + 4 * us.length) vs := by
  induction us generalizing m a with
  | nil => rfl
  | cons u us ih =>
    rw [List.cons_append, storeLongs, ih, storeLongs, List.length_cons]
    congr 1
    omega

theorem storeLongs_outside {ws : List UInt32} {i : ℕ} (h : i < a ∨ a + 4 * ws.length ≤ i) :
    storeLongs m a ws i = m i := by
  induction ws generalizing m a with
  | nil => rfl
  | cons w ws ih =>
    rw [List.length_cons] at h
    rw [storeLongs, ih (by omega)]
    exact storeWord_outside _ (by omega)

theorem loadLongs_storeLongs (ws : List UInt32) :
    loadLongs (storeLongs m a ws) a ws.length = ws := by
  induction ws generalizing m a with
  | nil => rfl
  | cons w ws ih =>
    have hfirst : loadLong (storeLongs (storeLong m a w) (a + 4) ws) a = w := by
      have hsame : loadWord (storeLongs (storeLong m a w) (a + 4) ws) a 4 =
          loadWord (storeLong m a w) a 4 :=
        loadWord_congr fun i hi hlt => storeLongs_outside (Or.inl (by omega))
      rw [loadLong, hsame]
      exact loadLong_storeLong m a w
    rw [List.length_cons, loadLongs, storeLongs, hfirst, ih]

end Longs

/-! ## Streams -/

/-- `x_op`. -/
inductive Op
  | encode
  | decode
  | free
deriving DecidableEq, Repr

/-- A stream over the bytes of a block, up to `size`. -/
@[ext] structure Stream where
  op : Op
  mem : ℕ → UInt8
  size : ℕ
  pos : ℕ
  inside : pos ≤ size

/-- The stream with its position moved on, if there is room. -/
def Stream.skip (xdrs : Stream) (len : ℕ) : Option Stream :=
  if h : xdrs.pos + len ≤ xdrs.size then some { xdrs with pos := xdrs.pos + len, inside := h }
  else none

/-- The stream over other bytes. -/
def Stream.setMem (xdrs : Stream) (m : ℕ → UInt8) : Stream := { xdrs with mem := m }

/-- `x_putlong`. -/
def putLong (xdrs : Stream) (w : UInt32) : Option Stream :=
  (xdrs.setMem (storeLong xdrs.mem xdrs.pos w)).skip 4

/-- `x_getlong`. -/
def getLong (xdrs : Stream) : Option (Stream × UInt32) :=
  (xdrs.skip 4).map fun xdrs' => (xdrs', loadLong xdrs.mem xdrs.pos)

/-- `xdr_int` and `xdr_float` on the word of the value: `none` for `FALSE`. -/
def xdrLong (xdrs : Stream) (w : UInt32) : Option (Stream × UInt32) :=
  match xdrs.op with
  | .encode => (putLong xdrs w).map fun xdrs => (xdrs, w)
  | .decode => getLong xdrs
  | .free => some (xdrs, w)

/-- One call after the other, each with `return FALSE` where it fails. -/
def xdrLongs (xdrs : Stream) : List UInt32 → Option (Stream × List UInt32)
  | [] => some (xdrs, [])
  | w :: ws => (xdrLong xdrs w).bind fun p =>
      (xdrLongs p.1 ws).map fun q => (q.1, p.2 :: q.2)

/-- Whether `x_inline` hands out a buffer for the next so many bytes. -/
abbrev Policy : Type := Stream → ℕ → Bool

/-- `XDR_INLINE`: a buffer within the stream, which is moved behind it. -/
def xdrInline (policy : Policy) (xdrs : Stream) (len : ℕ) : Option (ℕ × Stream) :=
  if policy xdrs len then (xdrs.skip len).map fun xdrs' => (xdrs.pos, xdrs') else none

/-- `IXDR_PUT_LONG`, for one word after the other. -/
def ixdrPutLongs (xdrs : Stream) (buf : ℕ) : List UInt32 → Stream
  | [] => xdrs
  | w :: ws => ixdrPutLongs (xdrs.setMem (storeLong xdrs.mem buf w)) (buf + 4) ws

/-- `IXDR_GET_LONG`, for one word after the other. -/
def ixdrGetLongs (xdrs : Stream) (buf : ℕ) : ℕ → List UInt32
  | 0 => []
  | k + 1 => loadLong xdrs.mem buf :: ixdrGetLongs xdrs (buf + 4) k

/-- A routine for a structure: `ints` are the integers it begins with, `rest` the words of
the other fields. -/
def xdrRecord (policy : Policy) (xdrs : Stream) (ints rest : List UInt32) :
    Option (Stream × List UInt32) :=
  let plain := (xdrLongs xdrs ints).bind fun p =>
    (xdrLongs p.1 rest).map fun q => (q.1, p.2 ++ q.2)
  match xdrs.op with
  | .encode =>
      match xdrInline policy xdrs (4 * ints.length) with
      | none => plain
      | some (buf, xdrs) => (xdrLongs (ixdrPutLongs xdrs buf ints) rest).map fun q =>
          (q.1, ints ++ q.2)
  | .decode =>
      match xdrInline policy xdrs (4 * ints.length) with
      | none => plain
      | some (buf, xdrs) => (xdrLongs xdrs rest).map fun q =>
          (q.1, ixdrGetLongs xdrs buf ints.length ++ q.2)
  | .free => plain

/-! ## What the routines do -/

section Routines

variable {xdrs xdrs' : Stream} {ws : List UInt32} {k : ℕ}

theorem skip_skip (xdrs : Stream) (j k : ℕ) :
    (xdrs.skip j).bind (·.skip k) = xdrs.skip (j + k) := by
  unfold Stream.skip
  by_cases hj : xdrs.pos + j ≤ xdrs.size
  · simp only [dif_pos hj, Option.bind_some, Nat.add_assoc]
  · rw [dif_neg hj, dif_neg (by omega), Option.bind_none]

theorem skip_setMem (xdrs : Stream) (m : ℕ → UInt8) (k : ℕ) :
    (xdrs.setMem m).skip k = (xdrs.skip k).map (·.setMem m) := by
  unfold Stream.skip
  by_cases h : xdrs.pos + k ≤ xdrs.size
  · rw [dif_pos h]
    exact dif_pos h
  · rw [dif_neg h]
    exact dif_neg h

theorem skip_zero (xdrs : Stream) : xdrs.skip 0 = some xdrs := dif_pos xdrs.inside

/-- What a stream that was moved on has in common with the one before. -/
theorem skip_spec (h : xdrs.skip k = some xdrs') : xdrs'.op = xdrs.op ∧ xdrs'.mem = xdrs.mem ∧
    xdrs'.pos = xdrs.pos + k := by
  unfold Stream.skip at h
  split_ifs at h
  cases h
  exact ⟨rfl, rfl, rfl⟩

/-- Encoding stores the words, if there is room for all of them. -/
theorem xdrLongs_encode (hop : xdrs.op = .encode) :
    xdrLongs xdrs ws = (xdrs.skip (4 * ws.length)).map fun xdrs' =>
      (xdrs'.setMem (storeLongs xdrs.mem xdrs.pos ws), ws) := by
  induction ws generalizing xdrs with
  | nil => simp [xdrLongs, skip_zero, storeLongs, Stream.setMem]
  | cons w ws ih =>
    have hlen : 4 * (w :: ws).length = 4 + 4 * ws.length := by
      rw [List.length_cons]
      omega
    rw [xdrLongs, xdrLong, hop, hlen, ← skip_skip]
    simp only [putLong, skip_setMem]
    cases hskip : xdrs.skip 4 with
    | none => rfl
    | some xdrs₁ =>
      obtain ⟨hop₁, hmem₁, hpos₁⟩ := skip_spec hskip
      have hop' : (xdrs₁.setMem (storeLong xdrs.mem xdrs.pos w)).op = .encode := hop₁.trans hop
      simp only [Option.map_some, Option.bind_some]
      rw [ih hop', skip_setMem, Option.map_map, Option.map_map]
      congr 1
      funext xdrs₂
      simp only [Function.comp_apply, Stream.setMem, hpos₁, storeLongs]

/-- Decoding loads the words, if there are as many. -/
theorem xdrLongs_decode (hop : xdrs.op = .decode) :
    xdrLongs xdrs ws = (xdrs.skip (4 * ws.length)).map fun xdrs' =>
      (xdrs', loadLongs xdrs.mem xdrs.pos ws.length) := by
  induction ws generalizing xdrs with
  | nil => simp [xdrLongs, skip_zero, loadLongs]
  | cons w ws ih =>
    have hlen : 4 * (w :: ws).length = 4 + 4 * ws.length := by
      rw [List.length_cons]
      omega
    rw [xdrLongs, xdrLong, hop, hlen, ← skip_skip]
    simp only [getLong]
    cases hskip : xdrs.skip 4 with
    | none => rfl
    | some xdrs₁ =>
      obtain ⟨hop₁, hmem₁, hpos₁⟩ := skip_spec hskip
      simp only [Option.map_some, Option.bind_some]
      rw [ih (hop₁.trans hop), Option.map_map, hmem₁, hpos₁]
      rfl

theorem ixdrPutLongs_eq (xdrs : Stream) (buf : ℕ) (ws : List UInt32) :
    ixdrPutLongs xdrs buf ws = xdrs.setMem (storeLongs xdrs.mem buf ws) := by
  induction ws generalizing xdrs buf with
  | nil => rfl
  | cons w ws ih =>
    rw [ixdrPutLongs, ih]
    rfl

theorem ixdrGetLongs_eq (xdrs : Stream) (buf k : ℕ) :
    ixdrGetLongs xdrs buf k = loadLongs xdrs.mem buf k := by
  induction k generalizing buf with
  | zero => rfl
  | succ k ih => rw [ixdrGetLongs, ih, loadLongs]

/-- Plain calls for a list of words that is put together from two. -/
theorem xdrLongs_append (us vs : List UInt32) :
    xdrLongs xdrs (us ++ vs) = (xdrLongs xdrs us).bind fun p =>
      (xdrLongs p.1 vs).map fun q => (q.1, p.2 ++ q.2) := by
  induction us generalizing xdrs with
  | nil =>
    simp only [List.nil_append, xdrLongs, Option.bind_some]
    rw [Option.map_id']
  | cons u us ih =>
    simp only [List.cons_append, xdrLongs]
    cases xdrLong xdrs u with
    | none => rfl
    | some p =>
      simp only [Option.bind_some, ih]
      cases xdrLongs p.1 us with
      | none => rfl
      | some q =>
        simp only [Option.bind_some, Option.map_some, Option.map_map]
        rfl

/-- **The buffer changes nothing.** Whether the routine gets a buffer for its integers or
not, it does what one plain call after the other does, and fails where these fail. -/
theorem xdrRecord_eq (policy : Policy) (xdrs : Stream) (ints rest : List UInt32) :
    xdrRecord policy xdrs ints rest = xdrLongs xdrs (ints ++ rest) := by
  have hlen : 4 * (ints ++ rest).length = 4 * ints.length + 4 * rest.length := by
    rw [List.length_append]
    omega
  unfold xdrRecord xdrInline
  rw [← xdrLongs_append]
  cases hop : xdrs.op with
  | free => rfl
  | encode =>
    simp only
    by_cases hpolicy : policy xdrs (4 * ints.length) = true
    · rw [if_pos hpolicy, xdrLongs_encode hop, hlen, ← skip_skip]
      cases hskip : xdrs.skip (4 * ints.length) with
      | none => rfl
      | some xdrs₁ =>
        obtain ⟨hop₁, hmem₁, hpos₁⟩ := skip_spec hskip
        simp only [Option.map_some, Option.bind_some, ixdrPutLongs_eq]
        have hop' : (xdrs₁.setMem (storeLongs xdrs₁.mem xdrs.pos ints)).op = .encode :=
          hop₁.trans hop
        rw [xdrLongs_encode hop', skip_setMem, Option.map_map, Option.map_map]
        congr 1
        funext xdrs₂
        simp only [Function.comp_apply, Stream.setMem, hmem₁, hpos₁, storeLongs_append]
    · rw [if_neg hpolicy]
  | decode =>
    simp only
    by_cases hpolicy : policy xdrs (4 * ints.length) = true
    · rw [if_pos hpolicy, xdrLongs_decode hop, hlen, ← skip_skip]
      cases hskip : xdrs.skip (4 * ints.length) with
      | none => rfl
      | some xdrs₁ =>
        obtain ⟨hop₁, hmem₁, hpos₁⟩ := skip_spec hskip
        simp only [Option.map_some, Option.bind_some, ixdrGetLongs_eq]
        rw [xdrLongs_decode (hop₁.trans hop), Option.map_map, hmem₁, hpos₁, List.length_append,
          loadLongs_add]
        rfl
    · rw [if_neg hpolicy]

end Routines

/-! ## From one block to another -/

section Shift

variable {m m' : ℕ → UInt8} {a b : ℕ}

/-- A word depends on its bytes, and not on where they stand. -/
theorem loadWord_shift {k : ℕ} (h : ∀ i < k, m' (b + i) = m (a + i)) :
    loadWord m' b k = loadWord m a k := by
  induction k generalizing a b with
  | zero => rfl
  | succ k ih =>
    have hfirst : m' b = m a := h 0 (by omega)
    have hrest : ∀ i < k, m' (b + 1 + i) = m (a + 1 + i) := by
      intro i hi
      have := h (1 + i) (by omega)
      rwa [← Nat.add_assoc, ← Nat.add_assoc] at this
    rw [loadWord, loadWord, hfirst, ih hrest]

theorem loadLongs_shift {k : ℕ} (h : ∀ i < 4 * k, m' (b + i) = m (a + i)) :
    loadLongs m' b k = loadLongs m a k := by
  induction k generalizing a b with
  | zero => rfl
  | succ k ih =>
    have hfirst : loadWord m' b 4 = loadWord m a 4 :=
      loadWord_shift fun i hi => h i (by omega)
    have hrest : ∀ i < 4 * k, m' (b + 4 + i) = m (a + 4 + i) := by
      intro i hi
      have := h (4 + i) (by omega)
      rwa [← Nat.add_assoc, ← Nat.add_assoc] at this
    rw [loadLongs, loadLongs, ih hrest, loadLong, loadLong, hfirst]

theorem storeWord_shift (m m' : ℕ → UInt8) (w : ℕ) {i k : ℕ} (hi : i < k) :
    storeWord m' b w k (b + i) = storeWord m a w k (a + i) := by
  induction k generalizing a b w i with
  | zero => cases hi
  | succ k ih =>
    cases i with
    | zero =>
      have hb : storeWord m' b w (k + 1) b = UInt8.ofNat w := Function.update_self ..
      have ha : storeWord m a w (k + 1) a = UInt8.ofNat w := Function.update_self ..
      exact hb.trans ha.symm
    | succ i =>
      have hb : b + (i + 1) = b + 1 + i := by omega
      have ha : a + (i + 1) = a + 1 + i := by omega
      rw [storeWord, storeWord, Function.update_of_ne (by omega),
        Function.update_of_ne (by omega), hb, ha]
      exact ih _ (by omega)

theorem storeLongs_shift (m m' : ℕ → UInt8) {ws : List UInt32} {i : ℕ} (hi : i < 4 * ws.length) :
    storeLongs m' b ws (b + i) = storeLongs m a ws (a + i) := by
  induction ws generalizing m m' a b i with
  | nil => cases hi
  | cons w ws ih =>
    rw [List.length_cons] at hi
    rw [storeLongs, storeLongs]
    by_cases hlt : i < 4
    · rw [storeLongs_outside (Or.inl (by omega)), storeLongs_outside (Or.inl (by omega))]
      exact storeWord_shift m m' _ hlt
    · have hb : b + i = b + 4 + (i - 4) := by omega
      have ha : a + i = a + 4 + (i - 4) := by omega
      rw [hb, ha]
      exact ih _ _ (by omega)

end Shift

/-- The bytes of the words. -/
def packed (ws : List UInt32) : List UInt8 :=
  (List.range (4 * ws.length)).map (storeLongs (fun _ => 0) 0 ws)

/-- The first words in the bytes. -/
def unpacked (bytes : List UInt8) (k : ℕ) : List UInt32 :=
  loadLongs (fun i => bytes.getD i 0) 0 k

@[simp] theorem length_packed (ws : List UInt32) : (packed ws).length = 4 * ws.length := by
  simp [packed]

/-- What is sent is received, whatever follows it. -/
theorem unpacked_packed (ws : List UInt32) (rest : List UInt8) :
    unpacked (packed ws ++ rest) ws.length = ws := by
  have hsame : unpacked (packed ws ++ rest) ws.length =
      loadLongs (storeLongs (fun _ => 0) 0 ws) 0 ws.length := by
    apply loadLongs_shift
    intro i hi
    have hlen : i < (packed ws).length := by
      rw [length_packed]
      exact hi
    rw [Nat.zero_add, List.getD_eq_getElem?_getD, List.getElem?_append_left hlen]
    simp [packed, hi]
  rw [hsame, loadLongs_storeLongs]

/-- The bytes of the stream from `start` up to its position. -/
def Stream.written (xdrs : Stream) (start : ℕ) : List UInt8 :=
  (List.range (xdrs.pos - start)).map fun i => xdrs.mem (start + i)

/-- The stream over bytes that were received, from `start` on. -/
def received (start : ℕ) (bytes : List UInt8) : Stream where
  op := .decode
  mem i := bytes.getD (i - start) 0
  size := start + bytes.length
  pos := start
  inside := Nat.le_add_right ..

/-- Where the words are sent from is not seen in the bytes. -/
theorem written_encode {xdrs : Stream} (hop : xdrs.op = .encode) (ws : List UInt32) :
    (xdrLongs xdrs ws).map (fun p => (p.1.written xdrs.pos, p.2)) =
      if xdrs.pos + 4 * ws.length ≤ xdrs.size then some (packed ws, ws) else none := by
  rw [xdrLongs_encode hop, Option.map_map]
  by_cases hroom : xdrs.pos + 4 * ws.length ≤ xdrs.size
  · obtain ⟨xdrs', hskip⟩ : ∃ xdrs', xdrs.skip (4 * ws.length) = some xdrs' :=
      ⟨_, dif_pos hroom⟩
    obtain ⟨-, -, hpos⟩ := skip_spec hskip
    rw [if_pos hroom, hskip, Option.map_some, Function.comp_apply]
    congr 2
    unfold Stream.written packed
    have hlen : (xdrs'.setMem (storeLongs xdrs.mem xdrs.pos ws)).pos - xdrs.pos =
        4 * ws.length := by
      rw [Stream.setMem, hpos]
      omega
    rw [hlen]
    apply List.map_congr_left
    intro i hi
    have := storeLongs_shift (fun _ => 0) xdrs.mem (a := 0) (b := xdrs.pos)
      (List.mem_range.mp hi)
    rwa [Nat.zero_add] at this
  · rw [if_neg hroom, Stream.skip, dif_neg hroom, Option.map_none]

/-- Where the bytes are received is not seen in the words. -/
theorem received_decode (start : ℕ) (bytes : List UInt8) (ws : List UInt32) :
    (xdrLongs (received start bytes) ws).map Prod.snd =
      if 4 * ws.length ≤ bytes.length then some (unpacked bytes ws.length) else none := by
  rw [xdrLongs_decode rfl, Option.map_map]
  unfold Stream.skip
  by_cases hroom : 4 * ws.length ≤ bytes.length
  · have hroom' : (received start bytes).pos + 4 * ws.length ≤ (received start bytes).size :=
      Nat.add_le_add_left hroom start
    rw [if_pos hroom, dif_pos hroom', Option.map_some, Function.comp_apply]
    congr 1
    apply loadLongs_shift
    intro i _
    show bytes.getD (start + i - start) 0 = bytes.getD (0 + i) 0
    rw [Nat.add_sub_cancel_left, Nat.zero_add]
  · have hroom' : ¬ (received start bytes).pos + 4 * ws.length ≤ (received start bytes).size :=
      fun h => hroom (Nat.le_of_add_le_add_left h)
    rw [if_neg hroom, dif_neg hroom', Option.map_none]

/-! ## Integers -/

/-- The numbers that an `int` holds. -/
def IsInt (z : ℤ) : Prop := -2147483648 ≤ z ∧ z < 2147483648

/-- An `int` as a word. -/
def ofInt (z : ℤ) : UInt32 := (Int32.ofInt z).toUInt32

/-- The `int` of a word. -/
def toInt (w : UInt32) : ℤ := w.toInt32.toInt

theorem toInt_ofInt {z : ℤ} (h : IsInt z) : toInt (ofInt z) = z := by
  unfold toInt ofInt
  rw [Int32.toInt32_toUInt32]
  exact Int32.toInt_ofInt_of_le h.1 h.2

theorem isInt_toInt (w : UInt32) : IsInt (toInt w) :=
  ⟨Int32.le_toInt _, Int32.toInt_lt _⟩

end OsLabs.Xdr
