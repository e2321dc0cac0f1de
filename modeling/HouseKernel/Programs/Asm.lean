import HouseKernel.Lib.Aarch64
import HouseKernel.Console.Key

/-! The assembly of the programs that run at EL0. A program is a list of lines; the assembler drops the labels and finds
the line that each branch goes to. -/
namespace HouseKernel.Programs

open HouseKernel.Lib HouseKernel.Lib.Aarch64
open HouseKernel.Console (ascii)

/-- A register, of which 31 is the zero register. -/
inductive AsmReg where
  | x (n : Reg)
  | w (n : Reg)
  | sp
  deriving DecidableEq, Repr

def mkX (n : ℕ) : Option AsmReg := if n ≤ 30 then some (.x (BitVec.ofNat 5 n)) else none

def mkW (n : ℕ) : Option AsmReg := if n ≤ 30 then some (.w (BitVec.ofNat 5 n)) else none

def mustX (n : ℕ) : AsmReg := (mkX n).getD (.x 31)

def mustW (n : ℕ) : AsmReg := (mkW n).getD (.w 31)

/-- An immediate of twelve bits. -/
abbrev U12 := Fin 4096

instance neZero_u12 : NeZero 4096 := ⟨by decide⟩

def mustU12 (n : ℕ) : U12 := if h : n < 4096 then ⟨n, h⟩ else 0

/-- The number of a system call. -/
abbrev SvcImm := Fin 0x15

instance neZero_svcImm : NeZero 0x15 := ⟨by decide⟩

def mustSvc (n : ℕ) : SvcImm := if h : n < 0x15 then ⟨n, h⟩ else 2

inductive AsmCond where
  | lo
  | hs
  | eq
  | ne
  | hi
  | lt
  deriving DecidableEq, Repr

/-- The lines that are instructions. `L` is how a branch names its target: by a label, or by the number of a line. -/
inductive AsmOp (L : Type) where
  | adrp (d : AsmReg) (sym : Text)
  | addLo12 (d n : AsmReg) (sym : Text)
  | movImm (d : AsmReg) (v : BitVec 16)
  | movNeg (d : AsmReg) (v : BitVec 16)
  | movReg (d n : AsmReg)
  | addReg (d n m : AsmReg)
  | subReg (d n m : AsmReg)
  | addImm (d n : AsmReg) (v : U12)
  | subImm (d n : AsmReg) (v : U12)
  | ldrOff (d n : AsmReg) (v : U12)
  | ldrbReg (d n m : AsmReg)
  | strbOff (t n : AsmReg) (v : U12)
  | strbPost (t n : AsmReg) (v : U12)
  | stpPush (a b n : AsmReg)
  | ldpPop (a b n : AsmReg)
  | cmpImm (n : AsmReg) (v : U12)
  | cmpShift12 (n : AsmReg) (v : U12)
  | cmpReg (n m : AsmReg)
  | cbz (r : AsmReg) (target : L)
  | cbnz (r : AsmReg) (target : L)
  | bCond (c : AsmCond) (target : L)
  | b (target : L)
  | bl (target : L)
  | ret
  | svc (imm : SvcImm)
  deriving DecidableEq, Repr

inductive AsmLine where
  | label (name : Text)
  | op (i : AsmOp Text)
  | localOp (name : Text) (i : AsmOp Text)
  deriving DecidableEq, Repr

def AsmLine.op? : AsmLine → Option (AsmOp Text)
  | .label _ => none
  | .op i => some i
  | .localOp _ i => some i

def AsmLine.label? : AsmLine → Option Text
  | .label name => some name
  | .op _ => none
  | .localOp name _ => some name

/-- The labels with the number of the instruction that each one is before. -/
def labelsFrom : ℕ → List AsmLine → List (Text × ℕ)
  | _, [] => []
  | i, l :: ls =>
    (match l.label? with
      | some name => [(name, i)]
      | none => []) ++ labelsFrom (if l.op?.isSome then i + 1 else i) ls

/-- The target of a branch at instruction `i`. A digit with `f` or `b` is the next or the last one of its labels. -/
def target (labels : List (Text × ℕ)) (i : ℕ) (name : Text) : Option ℕ :=
  let named := fun digit : CodePoint => labels.filter fun l => l.1 == [digit]
  match name with
  | [digit, way] =>
    if way = ascii 'f' then ((named digit).find? fun l => decide (i < l.2)).map (·.2)
    else if way = ascii 'b' then ((named digit).reverse.find? fun l => decide (l.2 ≤ i)).map (·.2)
    else (labels.find? fun l => l.1 == name).map (·.2)
  | _ => (labels.find? fun l => l.1 == name).map (·.2)

/-- The instruction with its target found. -/
def AsmOp.link (find : Text → Option ℕ) : AsmOp Text → Option (AsmOp ℕ)
  | .adrp d sym => some (.adrp d sym)
  | .addLo12 d n sym => some (.addLo12 d n sym)
  | .movImm d v => some (.movImm d v)
  | .movNeg d v => some (.movNeg d v)
  | .movReg d n => some (.movReg d n)
  | .addReg d n m => some (.addReg d n m)
  | .subReg d n m => some (.subReg d n m)
  | .addImm d n v => some (.addImm d n v)
  | .subImm d n v => some (.subImm d n v)
  | .ldrOff d n v => some (.ldrOff d n v)
  | .ldrbReg d n m => some (.ldrbReg d n m)
  | .strbOff t n v => some (.strbOff t n v)
  | .strbPost t n v => some (.strbPost t n v)
  | .stpPush r r' n => some (.stpPush r r' n)
  | .ldpPop r r' n => some (.ldpPop r r' n)
  | .cmpImm n v => some (.cmpImm n v)
  | .cmpShift12 n v => some (.cmpShift12 n v)
  | .cmpReg n m => some (.cmpReg n m)
  | .cbz r t => (find t).map (.cbz r)
  | .cbnz r t => (find t).map (.cbnz r)
  | .bCond c t => (find t).map (.bCond c)
  | .b t => (find t).map .b
  | .bl t => (find t).map .bl
  | .ret => some .ret
  | .svc imm => some (.svc imm)

def assemble (lines : List AsmLine) : Option (List (AsmOp ℕ)) :=
  (lines.filterMap AsmLine.op?).zipIdx.mapM fun (op, i) => op.link (target (labelsFrom 0 lines) i)

end HouseKernel.Programs
