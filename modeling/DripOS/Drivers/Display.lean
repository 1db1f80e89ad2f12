import DripOS.Klibc.Errno
import DripOS.Lib.Bits
import DripOS.Lib.Bytes
import DripOS.Lib.Outcome

/-!
# The framebuffer and the console

`src/drivers/vesa.c` draws to a back buffer and copies it to the real framebuffer.  Positions are
multiples of the pitch, lengths are multiples of the width.  A device file accesses the framebuffers
at the position of a descriptor, and `src/drivers/tty/tty.c` prints characters.  An access outside
of a framebuffer stops the model.

* `Display.vesaScroll_iff` : **scrolling and flipping are right** exactly when rows have no padding;
* `Display.vesa_access_iff` : when an access of the device file stays inside of the framebuffer;
* `Display.ttyRun_inside_iff` : **when the cursor and all characters are inside** of the screen,
  whatever is printed.
-/

namespace DripOS

open Bytes Function Nat

/-- The geometry that the bootloader hands over, in numbers of 16 bits. -/
structure Display where
  width : ℕ
  height : ℕ
  pitch : ℕ
  width_lt : width < 2 ^ 16
  height_lt : height < 2 ^ 16
  pitch_lt : pitch < 2 ^ 16
  wide : 4 * width ≤ pitch

namespace Display

/-- What a pointer points into. -/
inductive Region where
  | framebuffer
  | actualFramebuffer
  /-- The buffer of a caller, of which nothing is assumed. -/
  | user
  deriving DecidableEq, Repr

/-- A pointer, as a 64-bit offset from the start of a region. -/
structure Ptr where
  region : Region
  offset : ℕ
  deriving DecidableEq, Repr

abbrev Memory := Region → Bytes

def Ptr.add (p : Ptr) (n : ℕ) : Ptr := ⟨p.region, (p.offset + n) % 2 ^ 64⟩

/-- The memory with the `n` bytes at a pointer taken from `v`. -/
def Memory.fill (m : Memory) (p : Ptr) (n : ℕ) (v : Bytes) : Memory :=
  update m p.region ((m p.region).patch p.offset n v)

/-- `color_t`. -/
structure Color where
  r : UInt8
  g : UInt8
  b : UInt8

/-- `color_dat`. -/
def Color.dat (c : Color) : ℕ := c.r.toNat * 2 ^ 16 + c.g.toNat * 2 ^ 8 + c.b.toNat

section Code

variable (d : Display)

def framebufferSize : ℕ := d.height * d.pitch

def framebufferPixels : ℕ := d.width * d.height

/-- The four bytes at a pointer are in its region. -/
abbrev Inside (p : Ptr) : Prop := p.region = .user ∨ p.offset + 4 ≤ d.framebufferSize

def loadWord (p : Ptr) (m : Memory) : Except Ptr Bytes :=
  if d.Inside p then .ok ((m p.region).slice p.offset 4) else .error p

def storeWord (p : Ptr) (word : Bytes) (m : Memory) : Except Ptr Memory :=
  if d.Inside p then .ok (m.fill p 4 word) else .error p

/-- A loop that stores words from a pointer on. -/
def storeLoop (dst : Ptr) (word : ℕ → Memory → Except Ptr Bytes) (count : ℕ) :
    Memory → Except Ptr Memory :=
  forRange count fun i m => word i m >>= fun w => d.storeWord (dst.add (4 * i)) w m

/-- `memcpy32`. -/
def memcpy32 (src dst : Ptr) (count : ℕ) : Memory → Except Ptr Memory :=
  d.storeLoop dst (fun i => d.loadWord (src.add (4 * i))) count

/-- `memset32`. -/
def memset32 (dst : Ptr) (data count : ℕ) : Memory → Except Ptr Memory :=
  d.storeLoop dst (fun _ _ => .ok (ofNat data)) count

/-- `vesa_scroll`. -/
def vesaScroll (rowsShift : ℕ) (bg : Color) (m : Memory) : Except Ptr Memory := do
  let m ← d.memcpy32 ⟨.framebuffer, d.pitch * rowsShift⟩ ⟨.framebuffer, 0⟩
    (sub64 d.framebufferPixels (d.pitch * rowsShift / 4)) m
  d.memset32 ⟨.framebuffer, sub64 d.framebufferSize (d.pitch * rowsShift)⟩ bg.dat
    (d.pitch * rowsShift / 4) m

/-- `flip_buffers`. -/
def flipBuffers : Memory → Except Ptr Memory :=
  d.memcpy32 ⟨.framebuffer, 0⟩ ⟨.actualFramebuffer, 0⟩ d.framebufferPixels

/-- A pixel. -/
def pixel (m : Memory) (region : Region) (x y : ℕ) : ℕ := (m region).getLE (y * d.pitch + 4 * x) 4

/-! ### The device file -/

/-- `SEEK_SET`, `SEEK_CUR` and `SEEK_END`. -/
inductive Whence where
  | set
  | cur
  | fromEnd

/-- `fd_seek` of a descriptor of the device, with `vesa_seek`. -/
def fdSeek (seek offset : UInt64) : Whence → UInt64
  | .set => offset
  | .cur => seek + offset
  | .fromEnd => .ofNat d.framebufferSize

/-- The tests of `vesa_write` and `vesa_read`. -/
def vesaError (seek count : UInt64) : Option Errno :=
  if count &&& 3 ≠ 0 then some .einval
  else if seek &&& 3 ≠ 0 ∨ seek + count > .ofNat d.framebufferSize then some .espipe
  else none

/-- An access of the device file: the result, the new position and the memory. -/
def vesaAccess (copy : Memory → Except Ptr Memory) (seek count : UInt64) (m : Memory) :
    Except Ptr (ℤ × UInt64 × Memory) :=
  match d.vesaError seek count with
  | some e => .ok (-e.code, seek, m)
  | none => (copy m).map fun m => (toInt count.toNat, seek + count, m)

/-- `vesa_write`. -/
def vesaWrite (seek count : UInt64) : Memory → Except Ptr (ℤ × UInt64 × Memory) :=
  d.vesaAccess (fun m => d.memcpy32 ⟨.user, 0⟩ ⟨.framebuffer, seek.toNat⟩ (count.toNat / 4) m >>=
    d.memcpy32 ⟨.user, 0⟩ ⟨.actualFramebuffer, seek.toNat⟩ (count.toNat / 4)) seek count

/-- `vesa_read`. -/
def vesaRead (seek count : UInt64) : Memory → Except Ptr (ℤ × UInt64 × Memory) :=
  d.vesaAccess (d.memcpy32 ⟨.framebuffer, seek.toNat⟩ ⟨.user, 0⟩ (count.toNat / 4)) seek count

/-! ### The console -/

/-- `tty_t`, without the input. -/
structure Tty where
  fg : Color
  bg : Color
  cPosX : ℕ
  cPosY : ℕ
  rows : ℕ
  cols : ℕ

/-- `render_font`. -/
def renderFont (font : ℕ → ℕ → UInt8) (c : UInt8) (x y : ℕ) (fg bg : Color) :
    Memory → Except Ptr Memory :=
  forRange 8 fun iy => forRange 8 fun ix =>
    let dat := if (font c.toNat iy).toNat.testBit ix then fg.dat else bg.dat
    d.storeWord ⟨.framebuffer, ((iy + y) * d.pitch + (ix + x) * 4) % 2 ^ 64⟩ (ofNat dat)

/-- `tty_out`, the cursor before it scrolls. -/
def Tty.advance (t : Tty) (c : UInt8) : Tty :=
  if c = 10 ∨ t.cPosX + 1 = t.cols then { t with cPosX := 0, cPosY := t.cPosY + 1 }
  else { t with cPosX := t.cPosX + 1 }

/-- `tty_out`. -/
def ttyOut (font : ℕ → ℕ → UInt8) (c : UInt8) (s : Tty × Memory) : Except Ptr (Tty × Memory) :=
  (if c = 10 then .ok s.2
    else d.renderFont font c (s.1.cPosX * 8) (s.1.cPosY * 8) s.1.fg s.1.bg s.2) >>= fun m =>
  let t := s.1.advance c
  if t.cPosY = t.rows then
    (d.vesaScroll 8 t.bg m).map fun m => ({ t with cPosY := t.cPosY - 1 }, m)
  else .ok (t, m)

/-- `fill_screen`. -/
def fillScreen (color : Color) (m : Memory) : Except Ptr Memory :=
  d.memset32 ⟨.framebuffer, 0⟩ color.dat d.framebufferPixels m >>= d.flipBuffers

/-- `tty_seek_no_lock`. -/
def Tty.seek (t : Tty) (x y : ℕ) : Tty :=
  if x < t.cols ∧ y < t.rows then { t with cPosX := x, cPosY := y } else t

/-- `tty_init`, with the default colors, and `tty_clear`. -/
def ttyInit (fontWidth fontHeight : ℕ) (m : Memory) : Except Ptr (Tty × Memory) :=
  let t : Tty := ⟨⟨248, 248, 248⟩, ⟨56, 56, 56⟩, 0, 0, d.height / fontHeight, d.width / fontWidth⟩
  (d.fillScreen t.bg m).map fun m => (t.seek 0 0, m)

/-- Characters are sent one after the other. -/
def ttyRun (font : ℕ → ℕ → UInt8) (chars : List UInt8) (s : Tty × Memory) :
    Except Ptr (Tty × Memory) :=
  chars.foldlM (fun s c => d.ttyOut font c s) s

end Code

/-! ### Copies -/

section Copies

variable {d : Display} {src dst : Ptr} {word : ℕ → Memory → Except Ptr Bytes} {count : ℕ}
  {m m' : Memory}

theorem storeLoop_inside (h : d.storeLoop dst word count m = .ok m') :
    ∀ i < count, d.Inside (dst.add (4 * i)) ∧ ∃ t w, word i t = .ok w := by
  refine forRange_induct (fun n _ => ∀ i < n, d.Inside (dst.add (4 * i)) ∧
    ∃ t w, word i t = .ok w) (by simp) ?_ h
  intro i t t' _ ih hbody j hj
  obtain ⟨w, hw, hstore⟩ := bind_eq_ok.1 hbody
  rcases Nat.lt_succ_iff_lt_or_eq.1 hj with hj | rfl
  · exact ih j hj
  · refine ⟨?_, t, w, hw⟩
    by_contra hout
    rw [storeWord, if_neg hout] at hstore
    cases hstore

theorem storeLoop_returns
    (h : ∀ i < count, d.Inside (dst.add (4 * i)) ∧ ∀ t, ∃ w, word i t = .ok w) :
    ∃ m', d.storeLoop dst word count m = .ok m' := by
  refine forRange_returns (fun i hi t => ?_) m
  obtain ⟨hin, hword⟩ := h i hi
  obtain ⟨w, hw⟩ := hword t
  rw [hw, ok_bind, storeWord, if_pos hin]
  exact ⟨_, rfl⟩

theorem Ptr.add_eq {p : Ptr} {n : ℕ} (h : p.offset + n < 2 ^ 64) :
    p.add n = ⟨p.region, p.offset + n⟩ := by
  rw [Ptr.add, mod_eq_of_lt h]

theorem Memory.fill_zero (v : Bytes) : m.fill dst 0 v = m := by
  have hpatch : (m dst.region).patch dst.offset 0 v = m dst.region := by
    funext a
    exact if_neg (by omega)
  rw [Memory.fill, hpatch, update_eq_self]

theorem Memory.fill_fill {n k : ℕ} {v w : Bytes} (hw : ∀ j < k, w j = v (n + j)) :
    (m.fill dst n v).fill ⟨dst.region, dst.offset + n⟩ k w = m.fill dst (n + k) v := by
  have hpatch : ((m dst.region).patch dst.offset n v).patch (dst.offset + n) k w =
      (m dst.region).patch dst.offset (n + k) v := by
    funext a
    simp only [patch]
    split_ifs with h h' h' h' h'
    · rw [hw _ (by omega)]
      congr 1
      omega
    all_goals first | rfl | omega
  rw [Memory.fill, Memory.fill, Memory.fill, update_self, update_idem, hpatch]

/-- The memory after a loop that does not wrap. -/
theorem storeLoop_eq {v : Bytes} (hend : dst.offset + 4 * count ≤ 2 ^ 64)
    (hword : ∀ i < count, ∀ w, word i (m.fill dst (4 * i) v) = .ok w → ∀ j < 4, w j = v (4 * i + j))
    (h : d.storeLoop dst word count m = .ok m') : m' = m.fill dst (4 * count) v := by
  refine forRange_induct (fun n t => t = m.fill dst (4 * n) v) (Memory.fill_zero v).symm ?_ h
  rintro i t t' hi rfl hbody
  obtain ⟨w, hw, hstore⟩ := bind_eq_ok.1 hbody
  rw [storeWord, Ptr.add_eq (by omega)] at hstore
  split_ifs at hstore
  cases hstore
  exact Memory.fill_fill (hword i hi w hw)

theorem memcpy32_returns_iff : (∃ m', d.memcpy32 src dst count m = .ok m') ↔
    ∀ i < count, d.Inside (src.add (4 * i)) ∧ d.Inside (dst.add (4 * i)) := by
  constructor
  · rintro ⟨m', h⟩ i hi
    obtain ⟨hdst, t, w, hw⟩ := storeLoop_inside h i hi
    refine ⟨?_, hdst⟩
    by_contra hout
    rw [loadWord, if_neg hout] at hw
    cases hw
  · intro h
    refine storeLoop_returns fun i hi => ⟨(h i hi).2, fun t => ?_⟩
    exact ⟨_, if_pos (h i hi).1⟩

/-- A forward copy between regions, or to a lower address. -/
theorem memcpy32_eq (hsrc : src.offset + 4 * count ≤ 2 ^ 64)
    (hdst : dst.offset + 4 * count ≤ 2 ^ 64)
    (hle : src.region = dst.region → dst.offset ≤ src.offset)
    (h : d.memcpy32 src dst count m = .ok m') :
    m' = m.fill dst (4 * count) fun i => m src.region (src.offset + i) := by
  refine storeLoop_eq hdst ?_ h
  intro i hi w hw j hj
  rw [loadWord, Ptr.add_eq (by omega)] at hw
  split_ifs at hw
  cases hw
  rw [slice_of_lt hj, Memory.fill, update_apply, Nat.add_assoc]
  -- the bytes that are read are above those that were written
  split_ifs with hreg
  · rw [patch_of_le (by have := hle hreg; omega), hreg]
  · rfl

theorem memset32_eq {data : ℕ} (hdst : dst.offset + 4 * count ≤ 2 ^ 64)
    (h : d.memset32 dst data count m = .ok m') :
    m' = m.fill dst (4 * count) fun i => ofNat data (i % 4) := by
  refine storeLoop_eq hdst ?_ h
  intro i hi w hw j hj
  cases hw
  rw [show (4 * i + j) % 4 = j by omega]

theorem memset32_returns {data : ℕ} (h : ∀ i < count, d.Inside (dst.add (4 * i))) :
    ∃ m', d.memset32 dst data count m = .ok m' :=
  storeLoop_returns fun i hi => ⟨h i hi, fun _ => ⟨_, rfl⟩⟩

/-- Words that do not reach the end of a framebuffer are inside of it. -/
theorem inside_add {region : Region} {o n : ℕ} (h : o + n + 4 ≤ d.framebufferSize) :
    d.Inside (Ptr.add ⟨region, o⟩ n) :=
  .inr (by
    simp only [Ptr.add]
    omega)

end Copies

/-! ### Scrolling -/

section Scroll

variable {d : Display}

theorem framebufferSize_lt : d.framebufferSize < 2 ^ 32 := by
  have h := Nat.mul_lt_mul'' d.height_lt d.pitch_lt
  exact h

theorem pixels_le : 4 * d.framebufferPixels ≤ d.framebufferSize := by
  rw [framebufferPixels, framebufferSize, ← Nat.mul_assoc, Nat.mul_comm d.height]
  exact Nat.mul_le_mul_right _ d.wide

/-- The memory after scrolling, if the copy is not too long. -/
theorem vesaScroll_ok {r : ℕ} (hr : r ≤ d.height) (h4 : d.pitch * r % 4 = 0)
    (hfit : d.pitch * r / 4 ≤ d.framebufferPixels) (bg : Color) (m : Memory) :
    d.vesaScroll r bg m = .ok
      ((m.fill ⟨.framebuffer, 0⟩ (4 * (d.framebufferPixels - d.pitch * r / 4))
          fun i => m .framebuffer (d.pitch * r + i)).fill
        ⟨.framebuffer, d.framebufferSize - d.pitch * r⟩ (4 * (d.pitch * r / 4))
          fun i => ofNat bg.dat (i % 4)) := by
  have hsize := d.framebufferSize_lt
  have hpixels := d.pixels_le
  have hrows : d.pitch * r ≤ d.framebufferSize := by
    rw [framebufferSize, Nat.mul_comm]
    exact Nat.mul_le_mul_right _ hr
  rw [vesaScroll, sub64_eq hfit (by omega), sub64_eq hrows (by omega)]
  have hcopy : ∀ i < d.framebufferPixels - d.pitch * r / 4,
      d.Inside (Ptr.add ⟨.framebuffer, d.pitch * r⟩ (4 * i)) ∧
        d.Inside (Ptr.add ⟨.framebuffer, 0⟩ (4 * i)) :=
    fun i hi => ⟨inside_add (by omega), inside_add (by omega)⟩
  have hset : ∀ i < d.pitch * r / 4,
      d.Inside (Ptr.add ⟨.framebuffer, d.framebufferSize - d.pitch * r⟩ (4 * i)) :=
    fun i hi => inside_add (by omega)
  obtain ⟨m1, h1⟩ := memcpy32_returns_iff.2 hcopy
  obtain ⟨m2, h2⟩ := memset32_returns hset
  rw [h1, ok_bind, h2, memset32_eq (by simp only; omega) h2,
    memcpy32_eq (by simp only; omega) (by simp only; omega) (fun _ => Nat.zero_le _) h1]

/-- A length below zero is a copy that leaves the buffer. -/
theorem vesaScroll_ne_ok {r : ℕ} (hr : r ≤ d.height) (hfit : d.framebufferPixels < d.pitch * r / 4)
    {bg : Color} {m m' : Memory} : d.vesaScroll r bg m ≠ .ok m' := by
  intro h
  obtain ⟨m1, h₁, -⟩ := bind_eq_ok.1 h
  have hsize := d.framebufferSize_lt
  have hrows := Nat.mul_lt_mul'' d.pitch_lt (hr.trans_lt d.height_lt)
  have hcount : d.framebufferSize < sub64 d.framebufferPixels (d.pitch * r / 4) := by
    rw [sub64]
    omega
  have hin := (memcpy32_returns_iff.1 ⟨m1, h₁⟩ _ hcount).2
  simp [Inside, Ptr.add] at hin
  omega

theorem inside_pixels (region : Region) {i : ℕ} (hi : i < d.framebufferPixels) :
    d.Inside (Ptr.add ⟨region, 0⟩ (4 * i)) := by
  have hpixels := d.pixels_le
  exact inside_add (by omega)

theorem flipBuffers_ok (m : Memory) : d.flipBuffers m = .ok
    (m.fill ⟨.actualFramebuffer, 0⟩ (4 * d.framebufferPixels) fun i => m .framebuffer (0 + i)) := by
  have hsize := d.framebufferSize_lt
  have hpixels := d.pixels_le
  obtain ⟨m', h⟩ := memcpy32_returns_iff.2 fun i hi =>
    ⟨inside_pixels .framebuffer hi, inside_pixels _ hi⟩
  rw [flipBuffers, h, memcpy32_eq (by simp only; omega) (by simp only; omega) (by simp) h]

variable (d) in
/-- The rows are moved up, and the last ones have the background. -/
def Scrolled (r : ℕ) (bg : Color) (m m' : Memory) : Prop :=
  (∀ x < d.width, ∀ y, y + r < d.height →
    d.pixel m' .framebuffer x y = d.pixel m .framebuffer x (y + r)) ∧
  ∀ x < d.width, ∀ y < d.height, d.height ≤ y + r → d.pixel m' .framebuffer x y = bg.dat

variable (d) in
/-- The real framebuffer shows the back buffer. -/
def Flipped (m m' : Memory) : Prop :=
  ∀ x < d.width, ∀ y < d.height, d.pixel m' .actualFramebuffer x y = d.pixel m .framebuffer x y

section Pixel

variable {m : Memory} {region : Region} {o n x y : ℕ} {v : Bytes}

theorem pixel_fill_inside (hlo : o ≤ y * d.pitch + 4 * x) (hhi : y * d.pitch + 4 * x + 4 ≤ o + n) :
    d.pixel (m.fill ⟨region, o⟩ n v) region x y = v.getLE (y * d.pitch + 4 * x - o) 4 := by
  rw [pixel, Memory.fill, update_self]
  conv_lhs => rw [← Nat.add_sub_cancel' hlo]
  exact getLE_patch_inside (by omega)

theorem pixel_fill_outside (h : y * d.pitch + 4 * x + 4 ≤ o ∨ o + n ≤ y * d.pitch + 4 * x) :
    d.pixel (m.fill ⟨region, o⟩ n v) region x y = d.pixel m region x y := by
  rw [pixel, Memory.fill, update_self, getLE_patch_of_disjoint h, pixel]

/-- A pixel is in its row, and the row is in the framebuffer. -/
theorem pixel_le (hx : x < d.width) (hy : y < d.height) :
    y * d.pitch + 4 * x + 4 ≤ (y + 1) * d.pitch ∧ (y + 1) * d.pitch ≤ d.framebufferSize := by
  have hwide := d.wide
  rw [Nat.add_mul, Nat.one_mul]
  refine ⟨by omega, ?_⟩
  have := Nat.mul_le_mul_right d.pitch (succ_le_of_lt hy)
  rwa [succ_mul] at this

end Pixel

theorem Color.dat_lt (c : Color) : c.dat < 256 ^ 4 := by
  have := c.r.toNat_lt
  have := c.g.toNat_lt
  have := c.b.toNat_lt
  rw [dat]
  omega

theorem scrolled_of_pitch {r : ℕ} (hr : r ≤ d.height) (hp : d.pitch = 4 * d.width) (bg : Color)
    (m : Memory) : ∃ m', d.vesaScroll r bg m = .ok m' ∧ d.Scrolled r bg m m' := by
  have hrows : d.pitch * r = 4 * (d.width * r) := by rw [hp, Nat.mul_assoc]
  have hsize : d.framebufferSize = 4 * d.framebufferPixels := by
    rw [framebufferSize, framebufferPixels, hp, Nat.mul_comm, Nat.mul_assoc]
  have hfit : d.width * r ≤ d.framebufferPixels := Nat.mul_le_mul_left _ hr
  refine ⟨_, vesaScroll_ok hr (by omega) (by omega) bg m, ?_, ?_⟩
  · intro x hx y hy
    obtain ⟨hin, hrow⟩ := pixel_le hx hy
    rw [Nat.add_mul, Nat.add_mul, Nat.mul_comm r] at hrow
    rw [pixel_fill_outside (by omega), pixel_fill_inside (by omega) (by omega), pixel]
    refine getLE_congr fun i _ => congrArg _ ?_
    rw [Nat.add_mul, Nat.mul_comm r]
    omega
  · intro x hx y hy hlast
    obtain ⟨hin, hrow⟩ := pixel_le hx hy
    have hlo : d.framebufferSize - d.pitch * r ≤ y * d.pitch := by
      have := Nat.mul_le_mul_right d.pitch hlast
      rw [Nat.add_mul, Nat.mul_comm r] at this
      exact Nat.sub_le_iff_le_add.2 this
    have hword : y * d.pitch = 4 * (y * d.width) := by rw [hp]; ring
    have hdat : (ofNat bg.dat).getLE 0 4 = bg.dat := by
      rw [getLE_ofNat, pow_zero, Nat.div_one, mod_eq_of_lt bg.dat_lt]
    rw [pixel_fill_inside (by omega) (by omega)]
    refine Eq.trans (getLE_congr fun i hi => ?_) hdat
    exact congrArg (ofNat bg.dat) (by omega)

theorem flipped_of_pitch (hp : d.pitch = 4 * d.width) (m : Memory) :
    ∃ m', d.flipBuffers m = .ok m' ∧ d.Flipped m m' := by
  refine ⟨_, flipBuffers_ok m, fun x hx y hy => ?_⟩
  obtain ⟨hin, hrow⟩ := pixel_le hx hy
  have hsize : d.framebufferSize = 4 * d.framebufferPixels := by
    rw [framebufferSize, framebufferPixels, hp, Nat.mul_comm, Nat.mul_assoc]
  rw [pixel_fill_inside (Nat.zero_le _) (by omega)]
  simp only [Nat.zero_add, Nat.sub_zero, pixel]

/-- With padding, the copy is too short, or its length is below zero. -/
theorem not_scrolled_of_padding {r : ℕ} (h4 : d.pitch % 4 = 0) (hr : 1 ≤ r) (hrh : r ≤ d.height)
    (hp : d.pitch ≠ 4 * d.width) :
    ∃ m bg, ¬ ∃ m', d.vesaScroll r bg m = .ok m' ∧ d.Scrolled r bg m m' := by
  have hwide := d.wide
  have hsize := d.framebufferSize_lt
  obtain ⟨P, hP⟩ := dvd_of_mod_eq_zero h4
  have hrows : d.pitch * r = 4 * (P * r) := by rw [hP, Nat.mul_assoc]
  have hPr : P ≤ P * r := Nat.le_mul_of_pos_right _ hr
  by_cases hfit : P * r ≤ d.framebufferPixels
  · have hlt : r + 1 ≤ d.height := by
      by_contra hge
      have := Nat.mul_le_mul_right d.height (show d.width + 1 ≤ P by omega)
      rw [show r = d.height by omega, framebufferPixels] at hfit
      rw [succ_mul] at this
      omega
    have hw : 1 ≤ d.width := by
      by_contra hzero
      rw [framebufferPixels, show d.width = 0 by omega] at hfit
      omega
    -- the pixel that should move to the end of the last row that is copied
    obtain ⟨q, hq⟩ : ∃ q, q = d.height - 1 - r := ⟨_, rfl⟩
    have hbeyond : 4 * (d.framebufferPixels - P * r) ≤ q * d.pitch + 4 * (d.width - 1) := by
      have h1 := Nat.mul_le_mul_left (q + r) (show d.width + 1 ≤ P by omega)
      have h2 : d.framebufferPixels = (q + r) * d.width + d.width := by
        rw [framebufferPixels, show d.height = q + r + 1 by omega]; ring
      have h3 : q * d.pitch = 4 * (q * P) := by rw [hP]; ring
      rw [Nat.mul_add, Nat.add_mul q r P, Nat.mul_comm r P] at h1
      omega
    refine ⟨fun _ a => if a = (q + r) * d.pitch + 4 * (d.width - 1) then 1 else 0, ⟨0, 0, 0⟩, ?_⟩
    rintro ⟨m', h, hmoved, -⟩
    rw [vesaScroll_ok hrh (by omega) (by omega)] at h
    cases h
    have hpixel := hmoved (d.width - 1) (by omega) q (by omega)
    have hq' : (q + r) * d.pitch = q * d.pitch + d.pitch * r := by ring
    have hend : (q + r + 1) * d.pitch = d.framebufferSize := by
      rw [framebufferSize, show q + r + 1 = d.height by omega]
    rw [succ_mul] at hend
    rw [pixel_fill_outside (by omega), pixel_fill_outside (by omega)] at hpixel
    simp only [pixel, getLE] at hpixel
    rw [if_neg (by omega), if_neg (by omega), if_neg (by omega), if_neg (by omega)] at hpixel
    simp at hpixel
    omega
  · refine ⟨fun _ _ => 0, ⟨0, 0, 0⟩, ?_⟩
    rintro ⟨m', h, -⟩
    exact vesaScroll_ne_ok hrh (by omega) h

end Scroll

/-- **Scrolling by `r` rows and flipping are right** for every content exactly when the rows have no
padding. -/
theorem vesaScroll_iff (d : Display) (h4 : d.pitch % 4 = 0) {r : ℕ} (hr : 1 ≤ r)
    (hrh : r ≤ d.height) :
    ((∀ m bg, ∃ m', d.vesaScroll r bg m = .ok m' ∧ d.Scrolled r bg m m') ∧
      ∀ m, ∃ m', d.flipBuffers m = .ok m' ∧ d.Flipped m m') ↔ d.pitch = 4 * d.width := by
  constructor
  · rintro ⟨h, -⟩
    by_contra hp
    obtain ⟨m, bg, hnot⟩ := not_scrolled_of_padding h4 hr hrh hp
    exact hnot (h m bg)
  · intro hp
    exact ⟨fun m bg => scrolled_of_pitch hrh hp bg m, flipped_of_pitch hp⟩

/-- Four pixels in two rows. -/
def unpadded : Display := ⟨2, 2, 8, by decide, by decide, by decide, by decide⟩

theorem vesaScroll_unpadded :
    (∃ m', unpadded.vesaScroll 1 ⟨1, 2, 3⟩ (fun _ => UInt8.ofNat) = .ok m' ∧
      unpadded.Scrolled 1 ⟨1, 2, 3⟩ (fun _ => UInt8.ofNat) m') ∧
      ∃ m', unpadded.flipBuffers (fun _ => UInt8.ofNat) = .ok m' ∧
        unpadded.Flipped (fun _ => UInt8.ofNat) m' := by
  have h := (vesaScroll_iff unpadded (by decide) (by decide : 1 ≤ 1) (by decide)).2 rfl
  exact ⟨h.1 _ _, h.2 _⟩

/-- Two pixels, each in a row of two words. -/
def padded : Display := ⟨1, 2, 8, by decide, by decide, by decide, by decide⟩

/-- Neither is the second row moved up, nor is it copied. -/
theorem vesaScroll_padded :
    ((padded.vesaScroll 1 ⟨0, 0, 0⟩ fun _ => UInt8.ofNat).toOption.map fun m' =>
        padded.pixel m' .framebuffer 0 0) = some 0x03020100 ∧
      padded.pixel (fun _ => UInt8.ofNat) .framebuffer 0 1 = 0x0b0a0908 ∧
      ((padded.flipBuffers fun region _ => if region = .framebuffer then 1 else 0).toOption.map
        fun m' => padded.pixel m' .actualFramebuffer 0 1) = some 0 := by
  decide +kernel

/-! ### Accesses of the device file -/

section Device

variable {d : Display} {seek count : UInt64} {m : Memory}

theorem vesaError_eq_none (h : d.vesaError seek count = none) :
    seek.toNat % 4 = 0 ∧ count.toNat % 4 = 0 ∧ (seek + count).toNat ≤ d.framebufferSize := by
  have hsize : (UInt64.ofNat d.framebufferSize).toNat = d.framebufferSize :=
    UInt64.toNat_ofNat_of_lt' (d.framebufferSize_lt.trans (by decide))
  have hmod (x : UInt64) (hx : x &&& 3 = 0) : x.toNat % 4 = 0 := by
    have := congrArg UInt64.toNat hx
    exact (and_two_pow_sub_one_eq_mod x.toNat 2).symm.trans this
  rw [vesaError] at h
  split_ifs at h with hcount hseek
  rw [not_or, not_not] at hseek
  refine ⟨hmod _ hseek.1, hmod _ (not_not.1 hcount), ?_⟩
  rw [← hsize]
  exact UInt64.not_lt.1 hseek.2

/-- An access stays inside exactly when its end does not wrap. -/
theorem inside_iff (region : Region) (hregion : region ≠ .user)
    (h : d.vesaError seek count = none) :
    (∀ i < count.toNat / 4, d.Inside (Ptr.add ⟨region, seek.toNat⟩ (4 * i))) ↔
      seek.toNat + count.toNat < 2 ^ 64 := by
  obtain ⟨hseek, hcount, hend⟩ := vesaError_eq_none h
  have hsize := d.framebufferSize_lt
  have hlt := seek.toNat_lt
  rw [UInt64.toNat_add] at hend
  constructor
  · intro hin
    by_contra hwrap
    have hlast := (hin ((2 ^ 64 - 4 - seek.toNat) / 4) (by omega)).resolve_left hregion
    simp only [Ptr.add] at hlast
    omega
  · intro hwrap i hi
    exact inside_add (by omega)

/-- **An access that is not refused stays inside of the framebuffers** exactly when position and
length do not wrap around. -/
theorem vesa_access_iff (d : Display) (m : Memory) (h : d.vesaError seek count = none) :
    ((∃ s, d.vesaWrite seek count m = .ok s) ↔ seek.toNat + count.toNat < 2 ^ 64) ∧
      ((∃ s, d.vesaRead seek count m = .ok s) ↔ seek.toNat + count.toNat < 2 ^ 64) ∧
      ∀ s, d.vesaWrite seek count m = .ok s ∨ d.vesaRead seek count m = .ok s →
        s.2.1.toNat ≤ d.framebufferSize := by
  have hframe := inside_iff .framebuffer (by decide) h
  have hactual := inside_iff .actualFramebuffer (by decide) h
  have huser (i : ℕ) : d.Inside (Ptr.add ⟨.user, 0⟩ (4 * i)) := .inl rfl
  simp only [vesaWrite, vesaRead, vesaAccess, h]
  refine ⟨?_, ?_, ?_⟩
  · constructor
    · rintro ⟨s, hs⟩
      obtain ⟨m2, h2, -⟩ := map_eq_ok.1 hs
      obtain ⟨m1, h1, -⟩ := bind_eq_ok.1 h2
      exact hframe.1 fun i hi => (memcpy32_returns_iff.1 ⟨m1, h1⟩ i hi).2
    · intro hwrap
      obtain ⟨m1, h1⟩ := memcpy32_returns_iff.2 fun i hi => ⟨huser i, hframe.2 hwrap i hi⟩
      obtain ⟨m2, h2⟩ := memcpy32_returns_iff.2 fun i hi => ⟨huser i, hactual.2 hwrap i hi⟩
      exact ⟨_, map_eq_ok.2 ⟨m2, bind_eq_ok.2 ⟨m1, h1, h2⟩, rfl⟩⟩
  · constructor
    · rintro ⟨s, hs⟩
      obtain ⟨m1, h1, -⟩ := map_eq_ok.1 hs
      exact hframe.1 fun i hi => (memcpy32_returns_iff.1 ⟨m1, h1⟩ i hi).1
    · intro hwrap
      obtain ⟨m1, h1⟩ := memcpy32_returns_iff.2 fun i hi => ⟨hframe.2 hwrap i hi, huser i⟩
      exact ⟨_, map_eq_ok.2 ⟨m1, h1, rfl⟩⟩
  · rintro s (hs | hs)
    all_goals
      obtain ⟨_, -, rfl⟩ := map_eq_ok.1 hs
      exact (vesaError_eq_none h).2.2

/-- Reading the first word. -/
theorem vesaRead_word :
    padded.vesaError 0 4 = none ∧ ∃ s, padded.vesaRead 0 4 (fun _ _ => 0) = .ok s :=
  ⟨by decide +kernel, (vesa_access_iff padded _ (by decide +kernel)).2.1.2 (by decide)⟩

/-- A position just below zero passes the test, and a word before the buffer is written. -/
theorem vesaWrite_wraps :
    padded.fdSeek 0 (-4) .set = -4 ∧ padded.vesaError (-4) 4 = none ∧
      stopReason (padded.vesaWrite (-4) 4 fun _ _ => 0) = some ⟨.framebuffer, 2 ^ 64 - 4⟩ := by
  decide +kernel

end Device

/-! ### The console -/

section Console

variable {d : Display} {font : ℕ → ℕ → UInt8}

variable (d) in
/-- The cursor is on the screen. -/
structure Tty.OnScreen (t : Tty) : Prop where
  rows : t.rows = d.height / 8
  cols : t.cols = d.width / 8
  x_lt : t.cPosX < t.cols
  y_lt : t.cPosY < t.rows

theorem renderFont_returns {t : Tty} (ht : t.OnScreen d) (c : UInt8) (fg bg : Color) (m : Memory) :
    ∃ m', d.renderFont font c (t.cPosX * 8) (t.cPosY * 8) fg bg m = .ok m' := by
  obtain ⟨hrows, hcols, hx, hy⟩ := ht
  refine forRange_returns (fun iy hiy => forRange_returns fun ix hix m => ?_) m
  obtain ⟨hin, hrow⟩ := pixel_le (d := d) (show ix + t.cPosX * 8 < d.width by omega)
    (show iy + t.cPosY * 8 < d.height by omega)
  exact ⟨_, if_pos (.inr (by simp only; omega))⟩

theorem ttyInit_ok (hw : 8 ≤ d.width) (hh : 8 ≤ d.height) (m : Memory) :
    ∃ s, d.ttyInit 8 8 m = .ok s ∧ s.1.OnScreen d := by
  obtain ⟨m1, h1⟩ := memset32_returns fun i hi => inside_pixels .framebuffer hi
  refine ⟨_, map_eq_ok.2 ⟨_, bind_eq_ok.2 ⟨m1, h1, flipBuffers_ok m1⟩, rfl⟩, ?_⟩
  have hx : 0 < d.width / 8 := by omega
  have hy : 0 < d.height / 8 := by omega
  simp only [Tty.seek, hx, hy]
  exact ⟨rfl, rfl, hx, hy⟩

/-- The cursor before scrolling is at most one row below the screen. -/
theorem Tty.OnScreen.advance {t : Tty} (ht : t.OnScreen d) (c : UInt8) :
    (t.advance c).rows = t.rows ∧ (t.advance c).cols = t.cols ∧
      (t.advance c).cPosX < t.cols ∧ (t.advance c).cPosY ≤ t.rows := by
  obtain ⟨-, -, hx, hy⟩ := ht
  unfold Tty.advance
  split_ifs with hc
  · exact ⟨rfl, rfl, by simp only; omega, by simp only; omega⟩
  · rw [not_or] at hc
    exact ⟨rfl, rfl, by simp only; omega, by simp only; omega⟩

theorem ttyOut_onScreen {c : UInt8} {s s' : Tty × Memory} (hs : s.1.OnScreen d)
    (h : d.ttyOut font c s = .ok s') : s'.1.OnScreen d := by
  obtain ⟨hrows, hcols, hx, hy⟩ := hs.advance c
  have hlt := hs.y_lt
  obtain ⟨m, -, h⟩ := bind_eq_ok.1 h
  dsimp only at h
  split_ifs at h with hlast
  · obtain ⟨m', -, rfl⟩ := map_eq_ok.1 h
    exact ⟨hrows.trans hs.rows, hcols.trans hs.cols, by simp only; omega, by simp only; omega⟩
  · cases h
    exact ⟨hrows.trans hs.rows, hcols.trans hs.cols, by simp only; omega, by simp only; omega⟩

theorem ttyOut_returns (hh : 8 ≤ d.height) (hfit : 2 * d.pitch ≤ d.framebufferPixels) (c : UInt8)
    {s : Tty × Memory} (hs : s.1.OnScreen d) : ∃ s', d.ttyOut font c s = .ok s' := by
  have hrender : ∃ m, (if c = 10 then .ok s.2 else d.renderFont font c (s.1.cPosX * 8)
      (s.1.cPosY * 8) s.1.fg s.1.bg s.2) = Except.ok m := by
    split_ifs
    · exact ⟨_, rfl⟩
    · exact renderFont_returns hs c _ _ _
  obtain ⟨m, hm⟩ := hrender
  rw [ttyOut, hm, ok_bind]
  dsimp only
  split_ifs
  · rw [vesaScroll_ok hh (by omega) (by omega)]
    exact ⟨_, rfl⟩
  · exact ⟨_, rfl⟩

/-- A line feed in the last row scrolls. -/
theorem ttyOut_ne_ok (hh : 8 ≤ d.height) (hfit : d.framebufferPixels < 2 * d.pitch)
    {s s' : Tty × Memory} (hlast : s.1.cPosY + 1 = s.1.rows) : d.ttyOut font 10 s ≠ .ok s' := by
  intro h
  obtain ⟨m, -, h⟩ := bind_eq_ok.1 h
  have hrow : (s.1.advance 10).cPosY = (s.1.advance 10).rows := hlast
  dsimp only at h
  rw [if_pos hrow] at h
  obtain ⟨m', h, -⟩ := map_eq_ok.1 h
  exact vesaScroll_ne_ok hh (by omega) h

/-- Line feeds lead to the last row. -/
theorem exists_ttyRun_ne_ok (hh : 8 ≤ d.height) (hfit : d.framebufferPixels < 2 * d.pitch) {k : ℕ}
    {s : Tty × Memory} (hk : s.1.cPosY + k + 1 = s.1.rows) :
    ∃ chars, ∀ s', d.ttyRun font chars s ≠ .ok s' := by
  induction k generalizing s with
  | zero =>
    refine ⟨[10], fun s' h => ?_⟩
    obtain ⟨s1, h1, -⟩ := bind_eq_ok.1 h
    exact ttyOut_ne_ok hh hfit hk h1
  | succ k ih =>
    have hout : d.ttyOut font 10 s = .ok (s.1.advance 10, s.2) := by
      have hrow : (s.1.advance 10).cPosY ≠ (s.1.advance 10).rows := by
        show s.1.cPosY + 1 ≠ s.1.rows
        omega
      rw [ttyOut, if_pos rfl, ok_bind, if_neg hrow]
    obtain ⟨chars, hchars⟩ := @ih (s.1.advance 10, s.2) (by
      show s.1.cPosY + 1 + k + 1 = s.1.rows
      omega)
    refine ⟨10 :: chars, fun s' h => hchars s' ?_⟩
    rwa [ttyRun, List.foldlM_cons, hout] at h

/-- **Whatever is printed, the cursor stays on the screen, and every pixel of a character is inside
of the back buffer, exactly if** the eight rows that scrolling drops are at most as many words as
the screen has pixels. -/
theorem ttyRun_inside_iff (d : Display) (hw : 8 ≤ d.width) (hh : 8 ≤ d.height)
    (font : ℕ → ℕ → UInt8) (m : Memory) :
    (∀ chars, ∃ s, d.ttyInit 8 8 m >>= d.ttyRun font chars = .ok s ∧
      s.1.cPosX < s.1.cols ∧ s.1.cPosY < s.1.rows ∧
        ∀ c fg bg, ∃ m', d.renderFont font c (s.1.cPosX * 8) (s.1.cPosY * 8) fg bg s.2 = .ok m') ↔
      2 * d.pitch ≤ d.width * d.height := by
  obtain ⟨s0, h0, hinit⟩ := ttyInit_ok hw hh m
  rw [h0]
  constructor
  · intro hall
    by_contra hfit
    have hlt := hinit.y_lt
    obtain ⟨chars, hchars⟩ := @exists_ttyRun_ne_ok d font hh (Nat.not_le.1 hfit)
      (s0.1.rows - s0.1.cPosY - 1) s0 (by omega)
    obtain ⟨s, hs, -⟩ := hall chars
    exact hchars s hs
  · intro hfit chars
    have hruns : ∀ s, s.1.OnScreen d → ∃ s', d.ttyRun font chars s = .ok s' ∧ s'.1.OnScreen d := by
      induction chars with
      | nil => exact fun s hs => ⟨s, rfl, hs⟩
      | cons c chars ih =>
        intro s hs
        obtain ⟨s1, h1⟩ : ∃ s1, d.ttyOut font c s = .ok s1 := ttyOut_returns hh hfit c hs
        rw [ttyRun, List.foldlM_cons, h1]
        exact ih s1 (ttyOut_onScreen hs h1)
    obtain ⟨s, hs, hon⟩ := hruns s0 hinit
    exact ⟨s, hs, hon.x_lt, hon.y_lt, fun c fg bg => renderFont_returns hon c fg bg s.2⟩

/-- A screen of one character, with rows of nine words. -/
def oneCharacter : Display := ⟨8, 8, 36, by decide, by decide, by decide, by decide⟩

/-- Two rows of two characters. -/
def fourCharacters : Display := ⟨16, 16, 64, by decide, by decide, by decide, by decide⟩

theorem ttyRun_inside_fourCharacters : ∃ s,
    fourCharacters.ttyInit 8 8 (fun _ _ => 0) >>=
        fourCharacters.ttyRun (fun _ _ => 0) [0x61, 10, 0x62, 10, 10] = .ok s ∧
      s.1.cPosX < s.1.cols ∧ s.1.cPosY < s.1.rows := by
  obtain ⟨s, hs, hx, hy, -⟩ := (ttyRun_inside_iff fourCharacters (by decide) (by decide)
    (fun _ _ => 0) fun _ _ => 0).2 (by decide) [0x61, 10, 0x62, 10, 10]
  exact ⟨s, hs, hx, hy⟩

/-- The first line feed does not return. -/
theorem ttyRun_oneCharacter : ¬ ∃ s, oneCharacter.ttyInit 8 8 (fun _ _ => 0) >>=
    oneCharacter.ttyRun (fun _ _ => 0) [10] = .ok s := by
  rintro ⟨s, h⟩
  obtain ⟨s0, h0, h⟩ := bind_eq_ok.1 h
  obtain ⟨s1, h1, -⟩ := bind_eq_ok.1 h
  obtain ⟨s0', h0', hon⟩ := @ttyInit_ok oneCharacter (by decide) (by decide) fun _ _ => 0
  cases h0.symm.trans h0'
  have hrows : s0.1.rows = 1 := hon.rows
  have hlt := hon.y_lt
  exact ttyOut_ne_ok (by decide) (by decide) (by omega) h1

end Console

end Display

end DripOS
