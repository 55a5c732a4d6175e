import Mathlib
import NexusOS.Lib.Run

namespace NexusOS.Drivers.Mouse

open Lib

section Source

/-- The variables of the PS/2 mouse driver; the coordinates are 32-bit and the wheel 8-bit signed. -/
structure State where
  moved : Bool
  x : ℤ
  y : ℤ
  buttons : UInt8
  wheel : ℤ
  w : ℕ
  h : ℕ
  packet : ℕ → UInt8
  packetIndex : ℕ
  packetLen : ℕ

def toInt8 (b : UInt8) : ℤ := (b.toNat : ℤ).bmod (2 ^ 8)

def toInt32 (v : ℤ) : ℤ := v.bmod (2 ^ 32)

def clampCoord (value : ℤ) (limit : ℕ) : ℤ :=
  if limit ≤ 1 then 0
  else if value < 0 then 0
  else if (limit : ℤ) ≤ value then toInt32 (toInt32 limit - 1)
  else toInt32 value

def mouseSetScreenSize (s : State) (width height : ℕ) : State :=
  let width := if width = 0 then 1 else width
  let height := if height = 0 then 1 else height
  { s with
    w := width
    h := height
    x := clampCoord s.x width
    y := clampCoord s.y height }

structure Record where
  dx : ℤ
  dy : ℤ
  buttons : UInt8
  wheel : ℤ

def wheelMove (b : UInt8) : ℤ :=
  if b &&& 0x08 ≠ 0 then ((b &&& 0x0F).toNat : ℤ) - 16 else (b &&& 0x0F).toNat

def mouseProcessPacket (s : State) : State × Option Record :=
  let status := s.packet 0
  if status &&& 0xC0 ≠ 0 then (s, none)
  else
    let dx := toInt8 (s.packet 1)
    let dy := toInt8 (s.packet 2)
    let wheel :=
      if s.packetLen = 4 ∧ wheelMove (s.packet 3) ≠ 0 then
        (s.wheel + wheelMove (s.packet 3)).bmod (2 ^ 8)
      else s.wheel
    let newButtons :=
      if s.packetLen = 4 then status &&& 0x07 ||| s.packet 3 &&& 0x30 else status &&& 0x07
    let nx := clampCoord (s.x + dx) s.w
    let ny := clampCoord (s.y - dy) s.h
    ({ s with
        moved := s.moved || decide (nx ≠ s.x ∨ ny ≠ s.y ∨ s.buttons ≠ newButtons)
        x := nx
        y := ny
        buttons := newButtons
        wheel := wheel },
      some ⟨dx, -dy, newButtons, wheel⟩)

def mouseProcessByte (s : State) (b : UInt8) : State × Option Record :=
  if s.packetIndex = 0 then
    if b &&& 0x08 = 0 then (s, none)
    else ({ s with packet := Function.update s.packet 0 b, packetIndex := 1 }, none)
  else
    let s := { s with
      packet := Function.update s.packet s.packetIndex b
      packetIndex := s.packetIndex + 1 }
    if s.packetIndex ≠ s.packetLen then (s, none)
    else mouseProcessPacket { s with packetIndex := 0 }

end Source

section Packets

structure Packet where
  status : UInt8
  xMove : UInt8
  yMove : UInt8
  sync : status &&& 0x08 ≠ 0

def Packet.bytes (p : Packet) : List UInt8 := [p.status, p.xMove, p.yMove]

def Packet.overflow (p : Packet) : Prop := p.status &&& 0xC0 ≠ 0

instance (p : Packet) : Decidable p.overflow := inferInstanceAs (Decidable (_ ≠ _))

def Packet.dx (p : Packet) : ℤ := p.xMove.toNat - if p.status &&& 0x10 ≠ 0 then 256 else 0

def Packet.dy (p : Packet) : ℤ := p.yMove.toNat - if p.status &&& 0x20 ≠ 0 then 256 else 0

structure Pointer where
  x : ℤ
  y : ℤ
  buttons : UInt8

def clamp (v : ℤ) (limit : ℕ) : ℤ := max 0 (min v (limit - 1))

def Pointer.move (w h : ℕ) (q : Pointer) (p : Packet) : Pointer :=
  if p.overflow then q
  else ⟨clamp (q.x + p.dx) w, clamp (q.y - p.dy) h, p.status &&& 0x07⟩

structure Desk where
  driver : State
  pointer : Pointer

def Desk.step (w h : ℕ) (d : Desk) (p : Packet) : Desk where
  driver := p.bytes.foldl (fun s b ↦ (mouseProcessByte s b).1) d.driver
  pointer := d.pointer.move w h p

structure Desk.Follows (w h : ℕ) (d : Desk) : Prop where
  x : d.driver.x = d.pointer.x
  y : d.driver.y = d.pointer.y
  buttons : d.driver.buttons = d.pointer.buttons
  left : 0 ≤ d.driver.x
  right : d.driver.x < w
  top : 0 ≤ d.driver.y
  bottom : d.driver.y < h

/-- A movement that the driver takes for what it is: it is one of eight bits, or pushes the pointer
against the edge where it is, and does not lead behind the last 32-bit coordinate. -/
def Packet.fitsX (p : Packet) (w : ℕ) (x : ℤ) : Prop :=
  w ≤ 1 ∨ (-128 ≤ p.dx ∧ p.dx ≤ 127 ∨ p.dx = -256 ∧ x = 0) ∧ min (x + p.dx) (w - 1) < 2 ^ 31

def Packet.fitsY (p : Packet) (h : ℕ) (y : ℤ) : Prop :=
  h ≤ 1 ∨ (-128 ≤ p.dy ∧ p.dy ≤ 127 ∨ p.dy = -256 ∧ y = h - 1) ∧ min (y - p.dy) (h - 1) < 2 ^ 31

def Desk.Fits (w h : ℕ) (d : Desk) (p : Packet) : Prop :=
  p.overflow ∨ p.fitsX w d.pointer.x ∧ p.fitsY h d.pointer.y

end Packets

section Step

variable {w h limit : ℕ} {d : Desk} {p : Packet} {x v v' : ℤ}

structure Desk.Idle (w h : ℕ) (d : Desk) : Prop where
  index : d.driver.packetIndex = 0
  len : d.driver.packetLen = 3
  width : d.driver.w = w
  height : d.driver.h = h
  x32 : d.driver.x < 2 ^ 31
  y32 : d.driver.y < 2 ^ 31

theorem toInt8_cases (b : UInt8) (negative : Prop) [Decidable negative]
    (hv : v = b.toNat - if negative then 256 else 0) :
    -256 ≤ v ∧ v ≤ 255 ∧ (toInt8 b = v ∧ -128 ≤ v ∧ v ≤ 127 ∨
      toInt8 b = v - 256 ∧ 128 ≤ v ∨ toInt8 b = v + 256 ∧ v < -128) := by
  have hlt : b.toNat < 256 := b.toNat_lt
  unfold toInt8
  simp only [Int.bmod]
  split_ifs at hv ⊢ <;> omega

theorem clampCoord_x (h₀ : 0 ≤ x) (h₁ : x < limit) (h₂ : x < 2 ^ 31) (hl : limit < 2 ^ 32)
    (hv : -256 ≤ v ∧ v ≤ 255 ∧ (v' = v ∧ -128 ≤ v ∧ v ≤ 127 ∨ v' = v - 256 ∧ 128 ≤ v ∨
      v' = v + 256 ∧ v < -128)) :
    clampCoord (x + v') limit = clamp (x + v) limit ↔
      limit ≤ 1 ∨ (-128 ≤ v ∧ v ≤ 127 ∨ v = -256 ∧ x = 0) ∧ min (x + v) (limit - 1) < 2 ^ 31 := by
  unfold clampCoord clamp toInt32
  simp only [Int.bmod]
  split_ifs <;> omega

theorem clampCoord_y (h₀ : 0 ≤ x) (h₁ : x < limit) (h₂ : x < 2 ^ 31) (hl : limit < 2 ^ 32)
    (hv : -256 ≤ v ∧ v ≤ 255 ∧ (v' = v ∧ -128 ≤ v ∧ v ≤ 127 ∨ v' = v - 256 ∧ 128 ≤ v ∨
      v' = v + 256 ∧ v < -128)) :
    clampCoord (x - v') limit = clamp (x - v) limit ↔
      limit ≤ 1 ∨ (-128 ≤ v ∧ v ≤ 127 ∨ v = -256 ∧ x = limit - 1) ∧
        min (x - v) (limit - 1) < 2 ^ 31 := by
  unfold clampCoord clamp toInt32
  simp only [Int.bmod]
  split_ifs <;> omega

theorem clampCoord_lt (v : ℤ) (limit : ℕ) : clampCoord v limit < 2 ^ 31 := by
  unfold clampCoord toInt32
  simp only [Int.bmod]
  split_ifs <;> omega

theorem clampCoord_range (hlimit : 0 < limit) (hx : x < 2 ^ 31) :
    0 ≤ clampCoord x limit ∧ clampCoord x limit < limit := by
  unfold clampCoord toInt32
  simp only [Int.bmod]
  split_ifs <;> omega

theorem clamp_range (hlimit : 0 < limit) (v : ℤ) : 0 ≤ clamp v limit ∧ clamp v limit < limit := by
  unfold clamp
  omega

theorem step_driver (hidle : d.Idle w h) (p : Packet) :
    (d.step w h p).driver = (mouseProcessPacket { d.driver with
      packet := Function.update (Function.update (Function.update d.driver.packet 0 p.status)
        1 p.xMove) 2 p.yMove }).1 := by
  obtain ⟨⟨moved, x, y, buttons, wheel, sw, sh, packet, index, len⟩, q⟩ := d
  obtain ⟨hindex, hlen, -, -, -, -⟩ := hidle
  dsimp only at hindex hlen
  subst hindex hlen
  simp [Desk.step, Packet.bytes, mouseProcessByte, p.sync]

theorem step_overflow (hidle : d.Idle w h) (hover : p.overflow) :
    (d.step w h p).Idle w h ∧ (d.step w h p).driver.x = d.driver.x ∧
      (d.step w h p).driver.y = d.driver.y ∧ (d.step w h p).driver.buttons = d.driver.buttons := by
  have hstatus : p.status &&& 0xC0 ≠ 0 := hover
  have hdriver := step_driver hidle p
  simp only [mouseProcessPacket, Function.update_of_ne (show (0 : ℕ) ≠ 2 by decide),
    Function.update_of_ne (show (0 : ℕ) ≠ 1 by decide), Function.update_self,
    if_pos hstatus] at hdriver
  refine ⟨⟨?_, ?_, ?_, ?_, ?_, ?_⟩, ?_, ?_, ?_⟩ <;> rw [hdriver]
  · exact hidle.index
  · exact hidle.len
  · exact hidle.width
  · exact hidle.height
  · exact hidle.x32
  · exact hidle.y32

theorem step_moves (hidle : d.Idle w h) (hover : ¬ p.overflow) :
    (d.step w h p).Idle w h ∧
      (d.step w h p).driver.x = clampCoord (d.driver.x + toInt8 p.xMove) w ∧
      (d.step w h p).driver.y = clampCoord (d.driver.y - toInt8 p.yMove) h ∧
      (d.step w h p).driver.buttons = p.status &&& 0x07 := by
  have hstatus : ¬ p.status &&& 0xC0 ≠ 0 := hover
  have hdriver := step_driver hidle p
  simp only [mouseProcessPacket, Function.update_of_ne (show (0 : ℕ) ≠ 2 by decide),
    Function.update_of_ne (show (0 : ℕ) ≠ 1 by decide),
    Function.update_of_ne (show (1 : ℕ) ≠ 2 by decide), Function.update_self,
    if_neg hstatus, hidle.len, show ¬ (3 : ℕ) = 4 by decide, if_false, false_and] at hdriver
  rw [hidle.width, hidle.height] at hdriver
  refine ⟨⟨?_, ?_, ?_, ?_, ?_, ?_⟩, ?_, ?_, ?_⟩ <;> rw [hdriver]
  · exact hidle.index
  · exact clampCoord_lt _ _
  · exact clampCoord_lt _ _

theorem step_follows (hw : 0 < w ∧ w < 2 ^ 32) (hh : 0 < h ∧ h < 2 ^ 32) (hidle : d.Idle w h)
    (hfollows : d.Follows w h) : (d.step w h p).Follows w h ↔ d.Fits w h p := by
  by_cases hover : p.overflow
  · obtain ⟨-, hx, hy, hb⟩ := step_overflow hidle hover
    have hpointer : (d.step w h p).pointer = d.pointer := if_pos hover
    refine ⟨fun _ ↦ .inl hover, fun _ ↦ ?_⟩
    obtain ⟨h₁, h₂, h₃, h₄, h₅, h₆, h₇⟩ := hfollows
    constructor <;> simp only [hx, hy, hb, hpointer] <;> assumption
  obtain ⟨-, hx, hy, hb⟩ := step_moves hidle hover
  have hpointer : (d.step w h p).pointer =
      ⟨clamp (d.pointer.x + p.dx) w, clamp (d.pointer.y - p.dy) h, p.status &&& 0x07⟩ :=
    if_neg hover
  have hxIff := clampCoord_x hfollows.left hfollows.right hidle.x32 hw.2
    (toInt8_cases p.xMove (p.status &&& 0x10 ≠ 0) rfl)
  have hyIff := clampCoord_y hfollows.top hfollows.bottom hidle.y32 hh.2
    (toInt8_cases p.yMove (p.status &&& 0x20 ≠ 0) rfl)
  have hfits : d.Fits w h p ↔ p.fitsX w d.pointer.x ∧ p.fitsY h d.pointer.y := or_iff_right hover
  rw [hfits, ← hfollows.x, ← hfollows.y]
  unfold Packet.fitsX Packet.fitsY
  rw [Packet.dx, Packet.dy, ← hxIff, ← hyIff, ← hx, ← hy]
  have hrangeX := clamp_range hw.1 (d.pointer.x + p.dx)
  have hrangeY := clamp_range hh.1 (d.pointer.y - p.dy)
  constructor
  · intro hstep
    have hstepX := hstep.x
    have hstepY := hstep.y
    rw [hpointer] at hstepX hstepY
    rw [hfollows.x, hfollows.y]
    exact ⟨hstepX, hstepY⟩
  rintro ⟨hstepX, hstepY⟩
  rw [hfollows.x] at hstepX
  rw [hfollows.y] at hstepY
  refine ⟨?_, ?_, ?_, ?_, ?_, ?_, ?_⟩
  · rw [hpointer]
    exact hstepX
  · rw [hpointer]
    exact hstepY
  · rw [hpointer]
    exact hb
  · exact hstepX ▸ hrangeX.1
  · exact hstepX ▸ hrangeX.2
  · exact hstepY ▸ hrangeY.1
  · exact hstepY ▸ hrangeY.2

theorem step_idle (hidle : d.Idle w h) (p : Packet) : (d.step w h p).Idle w h := by
  by_cases hover : p.overflow
  · exact (step_overflow hidle hover).1
  · exact (step_moves hidle hover).1

end Step

section Results

def Desk.start (s : State) : Desk := ⟨s, ⟨s.x, s.y, s.buttons⟩⟩

/-- The position follows the packets exactly as long as every movement is one that a signed byte
holds, or has no effect at the edge. -/
theorem position_follows_packets (s : State) (width height w h : ℕ) (hwidth : width < 2 ^ 32)
    (hheight : height < 2 ^ 32) (hindex : s.packetIndex = 0) (hlen : s.packetLen = 3)
    (hx : s.x < 2 ^ 31) (hy : s.y < 2 ^ 31) (hw : w = max 1 width) (hh : h = max 1 height)
    (packets : List Packet) :
    let d := Desk.start (mouseSetScreenSize s width height)
    (∀ n, ((packets.take n).foldl (Desk.step w h) d).Follows w h) ↔
      Along (Desk.step w h) (Desk.Fits w h) d packets := by
  intro d
  have hw' : d.driver.w = w := by
    simp only [d, Desk.start, mouseSetScreenSize]
    split_ifs <;> omega
  have hh' : d.driver.h = h := by
    simp only [d, Desk.start, mouseSetScreenSize]
    split_ifs <;> omega
  have hdx : d.driver.x = clampCoord s.x w := by rw [← hw']; rfl
  have hdy : d.driver.y = clampCoord s.y h := by rw [← hh']; rfl
  have hidle : d.Idle w h :=
    ⟨hindex, hlen, hw', hh', hdx ▸ clampCoord_lt _ _, hdy ▸ clampCoord_lt _ _⟩
  have hwpos : 0 < w ∧ w < 2 ^ 32 := by omega
  have hhpos : 0 < h ∧ h < 2 ^ 32 := by omega
  have hrangeX := clampCoord_range hwpos.1 hx
  have hrangeY := clampCoord_range hhpos.1 hy
  have hstart : d.Follows w h := by
    refine ⟨rfl, rfl, rfl, ?_, ?_, ?_, ?_⟩
    · exact hdx ▸ hrangeX.1
    · exact hdx ▸ hrangeX.2
    · exact hdy ▸ hrangeY.1
    · exact hdy ▸ hrangeY.2
  exact Along.throughout_iff (I := Desk.Idle w h) (W := fun _ _ ↦ True)
    (fun _ p hidle _ _ _ ↦ step_idle hidle p)
    (fun _ _ hidle hfollows _ ↦ step_follows hwpos hhpos hidle hfollows)
    hidle hstart (Along.of_forall (fun _ _ ↦ trivial) _ _)

def centred : State where
  moved := false
  x := 512
  y := 384
  buttons := 0
  wheel := 0
  w := 1024
  h := 768
  packet := fun _ ↦ 0
  packetIndex := 0
  packetLen := 3

def rightwards (b : UInt8) : Packet := ⟨0x08, b, 0, by decide⟩

theorem position_follows_packets_centred :
    ((([rightwards 100].take 1).foldl (Desk.step 800 600)
      (Desk.start (mouseSetScreenSize centred 800 600))).Follows 800 600) := by
  refine (position_follows_packets centred 800 600 800 600 (by decide) (by decide) rfl rfl
    (by decide) (by decide) rfl rfl [rightwards 100]).2 ?_ 1
  refine ⟨.inr ⟨.inr ⟨.inl ?_, ?_⟩, .inr ⟨.inl ?_, ?_⟩⟩, trivial⟩ <;> decide

/-- A movement of 200 to the right goes 56 to the left. -/
theorem fast_movement_reversed :
    let d := ([rightwards 200].take 1).foldl (Desk.step 1024 768)
      (Desk.start (mouseSetScreenSize centred 1024 768))
    d.pointer.x = 712 ∧ d.driver.x = 456 ∧ ¬ d.Follows 1024 768 := by
  intro d
  refine ⟨by decide, by decide, fun h ↦ ?_⟩
  exact absurd h.x (by decide)

end Results

end NexusOS.Drivers.Mouse
