import LambdaMoo.DbRoundTrip

/-!
# Formatted lines of the database file

The same formats are printed and scanned. A white space byte of a format is
printed as it is, but makes `scanf` skip all white space there is, so that
what follows a format has a say in how much of the file is taken.
-/

set_option autoImplicit false

namespace LambdaMoo.DbIo
open LambdaMoo.Decimal

/-- The conversions for the numbers of MOO, which have 64 bits, and for an `unsigned`. -/
inductive Conversion where
  | d | u
  deriving DecidableEq, Repr

inductive Directive where
  | byte (b : Byte)
  | num (c : Conversion)
  deriving DecidableEq, Repr

def directives : List Char → List Directive
  | [] => []
  | '%' :: 'd' :: cs => .num .d::directives cs
  | '%' :: 'u' :: cs => .num .u::directives cs
  | c::cs => .byte (charByte c)::directives cs

def format (s : String) : List Directive := directives s.toList

def printf : List Directive → List ℤ → List Byte
  | [], _ => []
  | .byte b::ds, zs => b::printf ds zs
  | .num _::ds, z::zs => print z ++ printf ds zs
  | .num _::_, [] => []

def Input.skip (f : Input) : Input := f.advance (f.rest.takeWhile isspace).length

/-- What is stored for the number in the text; C does not say what becomes of others. -/
def Conversion.store : Conversion → ℤ → Option ℤ
  | .d, z => if -2^63 ≤ z ∧ z < 2^63 then some z else none
  | .u, z => if z.natAbs < 2^32 then some (z % 2^32) else none

/-- `scanf`, with the numbers that were assigned. -/
def scanf : List Directive → Input → Result (List ℤ × Input)
  | [], f => .ok ([], f)
  | .byte b::ds, f =>
    if isspace b then scanf ds f.skip
    else if f.rest.head? = some b then scanf ds (f.advance 1)
    else .ok ([], f)
  | .num c::ds, f =>
    let g := f.skip
    let t := sign g.rest
    let r := scan 0 t.2
    let g := g.advance (g.rest.length-r.2.length)
    if t.2.head?.any isDigit then
      match c.store (if t.1 then -(r.1:ℤ) else r.1) with
      | none => .error (.undefined "number out of range")
      | some z => do
        let (zs, f) ← scanf ds g
        .ok (z::zs, f)
    else .ok ([], g)

/-- The next byte, if there is one, is no white space. -/
def Solid (bs : List Byte) : Prop := ∀ b ∈ bs.head?, isspace b = false

/-- After this directive of a format the text has to go on differently. -/
def Directive.Ends : Directive → List Byte → Prop
  | .byte b, bs => isspace b = true → Solid bs
  | .num _, bs => Stops bs

/-- Every directive of a format takes from the text just what was printed for it. -/
def Aligned : List Directive → List ℤ → List Byte → Prop
  | [], zs, _ => zs = []
  | .byte b::ds, zs, rest => (Directive.byte b).Ends (printf ds zs ++ rest) ∧ Aligned ds zs rest
  | .num c::ds, z::zs, rest =>
    c.store z = some z ∧ (Directive.num c).Ends (printf ds zs ++ rest) ∧ Aligned ds zs rest
  | .num _::_, [], _ => False

theorem solid_cons {b : Byte} {bs : List Byte} (h : isspace b = false) : Solid (b::bs) := by
  intro c hc
  simp at hc
  exact hc ▸ h

theorem Solid.append {bs : List Byte} (h : Solid bs) (hne : bs ≠ []) (rest : List Byte) :
    Solid (bs ++ rest) := by
  intro b hb
  apply h b
  rwa [List.head?_append_of_ne_nil _ hne] at hb

theorem solid_print (z : ℤ) (bs : List Byte) : Solid (print z ++ bs) := by
  obtain ⟨b, cs, hb, hs⟩ := print_head z
  rw [hb, List.cons_append]
  exact solid_cons hs

theorem Solid.takeWhile {bs : List Byte} (h : Solid bs) : bs.takeWhile isspace = [] := by
  cases bs with
  | nil => rfl
  | cons b bs => rw [List.takeWhile_cons_of_neg (by simp [h b (by simp)])]

theorem Solid.skip {f : Input} (h : Solid f.rest) : f.skip = f := by
  rw [Input.skip, h.takeWhile]
  rfl

theorem skip_space {f : Input} {b : Byte} {bs : List Byte} (hf : f.rest = b::bs)
    (hb : isspace b = true) (h : Solid bs) : f.skip = f.advance 1 := by
  rw [Input.skip, hf, List.takeWhile_cons_of_pos hb, h.takeWhile]
  rfl

/-- What was printed with a format is scanned with it, up to the place where it ends. -/
theorem scanf_printf (ds : List Directive) (zs : List ℤ) (rest : List Byte)
    (ha : Aligned ds zs rest) (f : Input) (hf : f.rest = printf ds zs ++ rest) :
    scanf ds f = .ok (zs, f.past (printf ds zs) rest f.buffer) := by
  induction ds generalizing zs f with
  | nil =>
    obtain rfl : zs = [] := ha
    simp [scanf, printf, Input.past, ← show f.rest = rest from hf]
  | cons d ds ih =>
    cases d with
    | byte b =>
      have hg : (f.advance 1).rest = printf ds zs ++ rest := by simp [Input.advance, hf, printf]
      have hs : scanf (.byte b::ds) f = scanf ds (f.advance 1) := by
        rw [scanf]
        split
        · next hb => rw [skip_space hf hb (ha.1 hb)]
        · rw [if_pos (by simp [hf, printf])]
      rw [hs, ih zs ha.2 _ hg]
      simp only [Input.past, Input.advance, printf, List.length_cons, Nat.add_assoc,
        Nat.add_comm 1]
    | num c =>
      cases zs with
      | nil => exact ha.elim
      | cons z zs =>
        obtain ⟨hz, hend, ha⟩ := ha
        have hr : f.rest = print z ++ (printf ds zs ++ rest) := by
          rw [hf, printf, List.append_assoc]
        have hk : f.skip = f := Solid.skip (hr ▸ solid_print _ _)
        have hn : scan 0 (printNat z.natAbs ++ (printf ds zs ++ rest)) =
            (z.natAbs, printf ds zs ++ rest) := scan_printNat _ hend
        obtain ⟨b, bs, hb, hd⟩ := printNat_cons z.natAbs
        have hv : (if z < 0 then -(z.natAbs:ℤ) else z.natAbs) = z := by
          split <;> omega
        have hl : f.rest.length-(printf ds zs ++ rest).length = (print z).length := by
          rw [hr, List.length_append, Nat.add_sub_cancel]
        have hg : (f.advance (print z).length).rest = printf ds zs ++ rest := by
          simp [Input.advance, hr]
        have hi := ih zs ha _ hg
        have ht : sign f.rest = (decide (z < 0), printNat z.natAbs ++ (printf ds zs ++ rest)) := by
          rw [hr, sign_print]
        rw [scanf, hk]
        simp only [ht, hn, hl, decide_eq_true_eq, hv, hz, hi]
        rw [if_pos (by simp [hb, hd])]
        simp [bind, Except.bind, printf, Input.past, Input.advance, Nat.add_assoc]

end LambdaMoo.DbIo
