import SeccompPolicy.BpfFilter
import SeccompPolicy.Lib.CConst
import SeccompPolicy.Lib.CPrint
import SeccompPolicy.LiftText

/-!
# The text of the filter

Source: `StringfyBPF_Filter` of `code_gen.cpp`, the printing loop of `PolicyManager::BPFCodeGen`
in `policy.cpp`, the declarations of `code_template/seccomp_template.c`; for the macros
`linux/filter.h`.

`StringfyBPF_Filter` prints a filter as a use of `BPF_STMT` or `BPF_JUMP`, and `BPFCodeGen` prints
one a line between the two parts of the template. The C compiler reads these lines as the
initialisers of an array of `struct sock_filter`.

* `stringfyBPF_Filter` and `filterText` are what is printed, character by character.
* `readFilter` is how C reads it: tokens (`Lib.CTokens`), `offsetof` replaced, constant
  expressions (`Lib.CConst`) over the constants of the headers and the variables of the template,
  and the fields of `struct sock_filter`, of which `jt` and `jf` are bytes.
* The values of the `k` field are computed in its 32 bits: conversion to them commutes with the
  operators that occur.

The proof goes through pieces of text (`Lib.CPrint`): each field of a filter is a list of pieces
that print as its text and are read as its tree.

## Results

* `opcodeTree_eval`, `KField.tree_eval`: the values of the two first arguments.
* `BPFFilter.Compiles.print`, `BPFFilter.Compiles.insn`: one filter is printed as a use of its
  macro and read as its instruction.
* `filterText_program`: what is printed of filters that compile is read back as their program.

`BPFFilter.Compiles` asks for jump fields that are bytes already; `WrittenFilter` says when they
are.
-/

namespace SeccompPolicy

open CSyntax ClassicBpf

/-! ## What is printed -/

/-- The name in the opcode string. -/
def BPFConst.text : BPFConst → String
  | .LD => "BPF_LD" | .LDX => "BPF_LDX" | .ST => "BPF_ST" | .ALU => "BPF_ALU" | .JMP => "BPF_JMP"
  | .RET => "BPF_RET" | .W => "BPF_W" | .ABS => "BPF_ABS" | .MEM => "BPF_MEM" | .K => "BPF_K"
  | .X => "BPF_X" | .TAX => "BPF_TAX" | .ADD => "BPF_ADD" | .SUB => "BPF_SUB" | .MUL => "BPF_MUL"
  | .DIV => "BPF_DIV" | .MOD => "BPF_MOD" | .NEG => "BPF_NEG" | .AND => "BPF_AND"
  | .OR => "BPF_OR" | .XOR => "BPF_XOR" | .LSH => "BPF_LSH" | .RSH => "BPF_RSH" | .JA => "BPF_JA"
  | .JEQ => "BPF_JEQ" | .JGT => "BPF_JGT" | .JGE => "BPF_JGE"
  | .ERROR => "BPF_ERROR" | .ERR => "BPF_ERR" | .INVALID => "INVALID"

/-- The names of an opcode string with bars between them. -/
def barText : List BPFConst → String
  | [] => ""
  | [c] => c.text
  | c :: cs => c.text ++ " | " ++ barText cs

/-- `opcode`. The store is written with two blanks. -/
def opcodeText (op : List BPFConst) : String :=
  if op = [.ST, .W] then "BPF_ST |  BPF_W" else barText op

/-- `k`. -/
def KField.text : KField → String
  | .empty => ""
  | .int n => intText n
  | .argOffset i => "offsetof(struct seccomp_data, args) + 8*" ++ i.repr
  | .archOffset => "(offsetof(struct seccomp_data, arch))"
  | .nrOffset => "(offsetof(struct seccomp_data, nr))"
  | .tArch => "t_arch"
  | .upperNrLimit => "upper_nr_limit"
  | .notX32Bit => "~X32_SYSCALL_BIT"
  | .retAllow => "SECCOMP_RET_ALLOW"
  | .retKillProcess => "SECCOMP_RET_KILL_PROCESS"
  | .retTrace d => "SECCOMP_RET_TRACE | (SECCOMP_RET_DATA & " ++ d.repr ++ ")"
  | .label l => l

/-- A label, as the text of a jump that is not printed. -/
def KField.isLabel : KField → Bool
  | .label _ => true
  | _ => false

/-- `jt` and `jf`. -/
def Target.text : Target → String
  | .num n => intText n
  | .label l => l

/-- A jump field, when it is not empty. -/
def Target.printed (t : Target) : String := if t.text = "" then "" else ", " ++ t.text

/-- `StringfyBPF_Filter`. -/
def stringfyBPF_Filter : BPFFilter → String
  | .label l => l
  | .stmt op k => "BPF_STMT(" ++ opcodeText op ++ ", " ++ (if k.text = "" then "0" else k.text) ++ ")"
  | .jump op k jt jf => "BPF_JUMP(" ++ opcodeText op ++ ", " ++
      (if k.text = "" then "0" else k.text) ++ jt.printed ++ jf.printed ++ ")"

/-- The loop that prints the filters. -/
def filterText : List BPFFilter → String
  | [] => ""
  | f :: fs => "        " ++ stringfyBPF_Filter f ++ ",\n" ++ filterText fs

/-! ## How C reads it -/

/-- The constants of the headers that opcode strings name. -/
def opcodeConsts : List BPFConst :=
  [.LD, .LDX, .ST, .ALU, .JMP, .RET, .W, .ABS, .MEM, .K, .X, .TAX, .ADD, .SUB, .MUL, .DIV, .MOD,
    .NEG, .AND, .OR, .XOR, .LSH, .RSH, .JA, .JEQ, .JGT, .JGE]

/-- `t_arch` and `upper_nr_limit` are variables of the template, the others are macros. -/
def otherConsts : List (String × Word) :=
  [("t_arch", auditArchX86_64), ("upper_nr_limit", 0x40000000#32 - 1),
    ("X32_SYSCALL_BIT", 0x40000000#32), ("SECCOMP_RET_ALLOW", SECCOMP_RET_ALLOW),
    ("SECCOMP_RET_KILL_PROCESS", SECCOMP_RET_KILL_PROCESS),
    ("SECCOMP_RET_TRACE", SECCOMP_RET_TRACE), ("SECCOMP_RET_DATA", SECCOMP_RET_DATA)]

/-- The value of a name. -/
def nameVal (x : String) : Option Word :=
  (opcodeConsts.map (fun c => (c.text, BitVec.ofNat 32 c.val)) ++ otherConsts).lookup x

/-- `struct seccomp_data`. -/
def seccompDataOffset (member : String) : Option Nat :=
  [("nr", 0), ("arch", 4), ("instruction_pointer", 8), ("args", 16)].lookup member

/-- `offsetof(struct seccomp_data, member)` in front of a text. -/
def offsetof? (ts : List Token) : Option Nat :=
  if ts.take 5 = [.ident "offsetof", .punct .lparen, .keyword "struct", .ident "seccomp_data",
      .punct .comma] then
    match ts.drop 5 with
    | .ident member :: .punct .rparen :: _ => seccompDataOffset member
    | _ => none
  else none

/-- The uses of `offsetof` replaced. The number counts the tokens of a use that are left. -/
def expandOffsetof : Nat → List Token → List Token
  | _, [] => []
  | k + 1, _ :: ts => expandOffsetof k ts
  | 0, t :: ts =>
    match offsetof? (t :: ts) with
    | some n => .const n :: expandOffsetof 6 ts
    | none => t :: expandOffsetof 0 ts

/-- `BPF_STMT(code, k)` and `BPF_JUMP(code, k, jt, jf)` of `linux/filter.h`, in the fields of
`struct sock_filter`: `jt` and `jf` are bytes. -/
def initialiserInsn : Tree → Option Insn
  | .call (.var f) [code, k] =>
    if f = "BPF_STMT" then
      (code.eval nameVal).bind fun c => (k.eval nameVal).map fun k =>
        ⟨(c.setWidth 16).toNat, k, some 0, some 0⟩
    else none
  | .call (.var f) [code, k, jt, jf] =>
    if f = "BPF_JUMP" then
      (code.eval nameVal).bind fun c => (k.eval nameVal).bind fun k =>
        jt.int?.bind fun jt => jf.int?.map fun jf =>
          ⟨(c.setWidth 16).toNat, k, some (jt % 256), some (jf % 256)⟩
    else none
  | _ => none

/-- The values of the initialisers. -/
def initialiserInsns : List Tree → Option (List Insn)
  | [] => some []
  | e :: es => (initialiserInsn e).bind fun i => (initialiserInsns es).map (i :: ·)

/-- The filter between the braces of `struct sock_filter filter[] = { ... };`. -/
def readFilter (text : List Char) : Option (List Insn) :=
  (lex (text.map white)).bind fun ts =>
    (initialisers ts.length (expandOffsetof 0 ts)).bind initialiserInsns

/-! ## What is printed in pieces -/

/-- Punctuators of the filter's text. -/
def lparenPiece : Piece := .mark ['('] .lparen

@[inherit_doc lparenPiece]
def rparenPiece : Piece := .mark [')'] .rparen

@[inherit_doc lparenPiece]
def commaPiece : Piece := .mark [','] .comma

@[inherit_doc lparenPiece]
def barPiece : Piece := .mark ['|'] .bar

/-- Uses of `offsetof` are replaced one by one. -/
theorem expandOffsetof_cons {t : Token} (ht : t ≠ .ident "offsetof") (ts : List Token) :
    expandOffsetof 0 (t :: ts) = t :: expandOffsetof 0 ts := by
  have hnone : offsetof? (t :: ts) = none := by
    refine if_neg fun h => ht ?_
    exact (List.cons.inj h).1
  rw [expandOffsetof, hnone]

/-- The pieces are an argument of a macro that is read as the tree. -/
structure PrintsAs (ps : List Piece) (e : Tree) : Prop where
  separate : separate ps = true
  ends : ∀ p ∈ ps.getLast?, p.before commaPiece = true ∧ p.before rparenPiece = true
  reads : ∃ ts, (∀ more, expandOffsetof 0 (piecesTokens ps ++ more) =
    ts ++ expandOffsetof 0 more) ∧ ReadsAs ts e

/-- Arguments with commas and blanks between them. -/
def argsPieces : List (List Piece) → List Piece
  | [] => []
  | [a] => a
  | a :: as => a ++ commaPiece :: .blank :: argsPieces as

theorem argsPieces_cons (a : List Piece) {as : List (List Piece)} (hne : as ≠ []) :
    argsPieces (a :: as) = a ++ commaPiece :: .blank :: argsPieces as := by
  cases as with
  | nil => exact absurd rfl hne
  | cons b bs => rfl

/-- Behind the parenthesis of a macro stands anything. -/
theorem lparen_before {q : Piece} (hq : q.isValid = true) : lparenPiece.before q = true := by
  have hall : ∀ e ∈ punctuators, (e.1.head?.all fun d => !goesOn punctuators ['('] d) = true := by
    decide
  cases q with
  | mark ds m => exact hall _ (of_decide_eq_true hq)
  | _ => rfl

theorem separate_argsPieces {a : List Piece} {as : List (List Piece)} {e : Tree}
    (ha : PrintsAs a e) (hne : as ≠ []) (hsep : separate (argsPieces as ++ [rparenPiece]) = true) :
    separate (argsPieces (a :: as) ++ [rparenPiece]) = true := by
  rw [argsPieces_cons a hne, List.append_assoc]
  refine separate_append ha.separate ?_ fun p hp q hq => ?_
  · simp only [List.cons_append, CSyntax.separate, Bool.and_eq_true]
    refine ⟨⟨rfl, rfl⟩, ⟨rfl, ?_⟩, hsep⟩
    cases (argsPieces as ++ [rparenPiece]).head? <;> rfl
  · obtain rfl := Option.some.inj hq
    exact (ha.ends p hp).1

theorem piecesTokens_argsPieces (a : List Piece) {as : List (List Piece)} (hne : as ≠ []) :
    piecesTokens (argsPieces (a :: as)) =
      piecesTokens a ++ .punct .comma :: piecesTokens (argsPieces as) := by
  rw [argsPieces_cons a hne, piecesTokens, List.flatMap_append]
  rfl

/-- The arguments of a macro. -/
theorem argsPieces_print {args : List (List Piece × Tree)} (hne : args ≠ [])
    (h : ∀ a ∈ args, PrintsAs a.1 a.2) :
    separate (argsPieces (args.map Prod.fst) ++ [rparenPiece]) = true ∧
      ∃ as : List (List Token × Tree), as.map Prod.snd = args.map Prod.snd ∧
        (∀ a ∈ as, ReadsAs a.1 a.2) ∧ ∀ more,
          expandOffsetof 0 (piecesTokens (argsPieces (args.map Prod.fst)) ++ more) =
            separated (as.map Prod.fst) ++ expandOffsetof 0 more := by
  induction args with
  | nil => exact absurd rfl hne
  | cons a args ih =>
    have ha := h a List.mem_cons_self
    obtain ⟨ts, hts, hreads⟩ := ha.reads
    cases args with
    | nil =>
      refine ⟨separate_append ha.separate rfl fun p hp q hq => ?_, [(ts, a.2)], rfl, ?_, hts⟩
      · obtain rfl := Option.some.inj hq
        exact (ha.ends p hp).2
      · exact List.forall_mem_singleton.mpr hreads
    | cons b bs =>
      obtain ⟨hsep, as, has, hall, hexp⟩ := ih (List.cons_ne_nil b bs) fun c hc =>
        h c (List.mem_cons_of_mem a hc)
      have hbs : (b :: bs).map Prod.fst ≠ [] := List.cons_ne_nil _ _
      refine ⟨separate_argsPieces ha hbs hsep, (ts, a.2) :: as, by rw [List.map_cons, has]; rfl,
        List.forall_mem_cons.mpr ⟨hreads, hall⟩, fun more => ?_⟩
      have hne : as.map Prod.fst ≠ [] := by
        rintro hnil
        rw [List.map_eq_nil_iff.mp hnil] at has
        cases has
      have hseparated : separated (((ts, a.2) :: as).map Prod.fst) =
          ts ++ .punct .comma :: separated (as.map Prod.fst) := separated_cons ts hne
      have htokens : piecesTokens (argsPieces ((a :: b :: bs).map Prod.fst)) =
          piecesTokens a.1 ++
            .punct .comma :: piecesTokens (argsPieces ((b :: bs).map Prod.fst)) :=
        piecesTokens_argsPieces a.1 hbs
      rw [htokens, hseparated, List.append_assoc, List.cons_append, hts,
        expandOffsetof_cons (by simp), hexp, List.append_assoc, List.cons_append]

/-- The use of a macro. -/
theorem macro_print {f : String} (hf : (Piece.word f).isValid = true) (hword : word f = .ident f)
    (hne : f ≠ "offsetof") {args : List (List Piece × Tree)} (hargs : args ≠ [])
    (h : ∀ a ∈ args, PrintsAs a.1 a.2) :
    PrintsAs (.word f :: lparenPiece :: (argsPieces (args.map Prod.fst) ++ [rparenPiece]))
      (.call (.var f) (args.map Prod.snd)) := by
  obtain ⟨hsep, as, has, hall, hexp⟩ := argsPieces_print hargs h
  have hlast : (Piece.word f :: lparenPiece ::
      (argsPieces (args.map Prod.fst) ++ [rparenPiece])).getLast? = some rparenPiece := by
    rw [← List.cons_append, ← List.cons_append, List.getLast?_concat]
  refine ⟨?_, ?_, ?_⟩
  · simp only [CSyntax.separate, Bool.and_eq_true]
    refine ⟨⟨hf, rfl⟩, ⟨rfl, ?_⟩, hsep⟩
    cases hhead : (argsPieces (args.map Prod.fst) ++ [rparenPiece]) with
    | nil => rfl
    | cons q qs =>
      rw [hhead] at hsep
      simp only [CSyntax.separate, Bool.and_eq_true] at hsep
      exact lparen_before hsep.1.1
  · intro p hp
    rw [hlast] at hp
    obtain rfl := Option.some.inj hp
    exact ⟨by decide, by decide⟩
  · have hasne : as ≠ [] := by
      rintro rfl
      cases args with
      | nil => exact hargs rfl
      | cons a args => simp at has
    refine ⟨.ident f :: .punct .lparen :: (separated (as.map Prod.fst) ++ [.punct .rparen]),
      fun more => ?_, has ▸ readsAs_call f hasne hall⟩
    have htokens : piecesTokens (Piece.word f :: lparenPiece ::
        (argsPieces (args.map Prod.fst) ++ [rparenPiece])) = .ident f :: .punct .lparen ::
        (piecesTokens (argsPieces (args.map Prod.fst)) ++ [.punct .rparen]) := by
      simp only [piecesTokens, List.flatMap_cons, List.flatMap_append, Piece.tokens, hword]
      rfl
    rw [htokens, List.cons_append, List.cons_append, List.append_assoc,
      expandOffsetof_cons (by simpa using hne), expandOffsetof_cons (by simp), hexp]
    simp [expandOffsetof_cons]

/-! ## The arguments -/

/-- A name that the headers define. -/
def BPFConst.isNamed (c : BPFConst) : Bool := decide (c ∈ opcodeConsts)

theorem BPFConst.named {c : BPFConst} (hc : c.isNamed = true) :
    (Piece.word c.text).isValid = true ∧ word c.text = .ident c.text ∧ c.text ≠ "offsetof" ∧
      nameVal c.text = some (BitVec.ofNat 32 c.val) := by
  have hall : ∀ d ∈ opcodeConsts, (Piece.word d.text).isValid = true ∧
      word d.text = .ident d.text ∧ d.text ≠ "offsetof" ∧
      nameVal d.text = some (BitVec.ofNat 32 d.val) := by
    decide +kernel
  exact hall c (of_decide_eq_true hc)

/-- An opcode string in pieces. -/
def opcodePieces (c : BPFConst) (cs : List BPFConst) : List Piece :=
  .word c.text :: cs.flatMap fun d => [.blank, barPiece, .blank, .word d.text]

/-- Its tree. -/
def opcodeTree (c : BPFConst) (cs : List BPFConst) : Tree := barTree c.text (cs.map BPFConst.text)

/-- What stands behind a name goes on with the names behind it. -/
theorem opcodePieces_cons (c d : BPFConst) (cs : List BPFConst) :
    opcodePieces c (d :: cs) = .word c.text :: .blank :: barPiece :: .blank :: opcodePieces d cs := rfl

theorem opcodePieces_separate {c : BPFConst} {cs : List BPFConst}
    (h : ∀ d ∈ c :: cs, d.isNamed = true) : separate (opcodePieces c cs) = true := by
  induction cs generalizing c with
  | nil =>
    have hc := (BPFConst.named (h c List.mem_cons_self)).1
    simp [opcodePieces, CSyntax.separate, hc]
  | cons d cs ih =>
    have hc := (BPFConst.named (h c List.mem_cons_self)).1
    have ih := ih fun e he => h e (List.mem_cons_of_mem c he)
    rw [opcodePieces_cons]
    simp only [CSyntax.separate, Bool.and_eq_true]
    exact ⟨⟨hc, rfl⟩, ⟨rfl, rfl⟩, ⟨by decide, rfl⟩, ⟨rfl, rfl⟩, ih⟩

theorem opcodePieces_last (c : BPFConst) (cs : List BPFConst) :
    ∃ d, (opcodePieces c cs).getLast? = some (.word d) := by
  induction cs generalizing c with
  | nil => exact ⟨c.text, rfl⟩
  | cons d cs ih =>
    obtain ⟨e, he⟩ := ih d
    exact ⟨e, he⟩

/-- An opcode string has no use of `offsetof`. -/
theorem opcodePieces_expand {c : BPFConst} {cs : List BPFConst}
    (h : ∀ d ∈ c :: cs, d.isNamed = true) (more : List Token) :
    expandOffsetof 0 (piecesTokens (opcodePieces c cs) ++ more) =
      barTokens c.text (cs.map BPFConst.text) ++ expandOffsetof 0 more := by
  induction cs generalizing c with
  | nil =>
    obtain ⟨-, hword, hne, -⟩ := BPFConst.named (h c List.mem_cons_self)
    have htokens : piecesTokens (opcodePieces c []) = [.ident c.text] := by
      rw [← hword]
      rfl
    rw [htokens]
    exact expandOffsetof_cons (by simpa using hne) more
  | cons d cs ih =>
    obtain ⟨-, hword, hne, -⟩ := BPFConst.named (h c List.mem_cons_self)
    have htokens : piecesTokens (opcodePieces c (d :: cs)) =
        .ident c.text :: .punct .bar :: piecesTokens (opcodePieces d cs) := by
      rw [← hword]
      rfl
    rw [htokens, List.cons_append, List.cons_append, expandOffsetof_cons (by simpa using hne),
      expandOffsetof_cons (by simp), ih fun e he => h e (List.mem_cons_of_mem c he)]
    rfl

theorem opcodePieces_print {c : BPFConst} {cs : List BPFConst}
    (h : ∀ d ∈ c :: cs, d.isNamed = true) : PrintsAs (opcodePieces c cs) (opcodeTree c cs) where
  separate := opcodePieces_separate h
  ends p hp := by
    obtain ⟨d, hd⟩ := opcodePieces_last c cs
    rw [hd] at hp
    obtain rfl := Option.some.inj hp
    exact ⟨by rfl, by rfl⟩
  reads := ⟨_, opcodePieces_expand h, readsAs_bars _ _⟩

/-- **The value of an opcode string.** -/
theorem opcodeTree_eval {c : BPFConst} {cs : List BPFConst}
    (h : ∀ d ∈ c :: cs, d.isNamed = true) :
    (opcodeTree c cs).eval nameVal = some (BitVec.ofNat 32 (opcodeVal (c :: cs))) := by
  have hnames : ∀ y ∈ c.text :: cs.map BPFConst.text, nameVal y = some ((nameVal y).getD 0) := by
    rw [← List.map_cons]
    refine List.forall_mem_map.mpr fun d hd => ?_
    rw [(BPFConst.named (h d hd)).2.2.2]
    rfl
  have hfold : ∀ (ds : List BPFConst) (v : Word), (∀ d ∈ ds, d.isNamed = true) →
      (ds.map BPFConst.text).foldl (fun v y => v ||| (nameVal y).getD 0) v =
        v ||| BitVec.ofNat 32 (opcodeVal ds) := by
    intro ds
    induction ds with
    | nil => exact fun v _ => (BitVec.or_zero).symm
    | cons d ds ih =>
      intro v hds
      rw [List.map_cons, List.foldl_cons, ih _ fun e he => hds e (List.mem_cons_of_mem d he),
        (BPFConst.named (hds d List.mem_cons_self)).2.2.2, Option.getD_some, BitVec.or_assoc,
        ← BitVec.ofNat_or]
      rfl
  rw [opcodeTree, eval_bars hnames,
    hfold cs _ fun d hd => h d (List.mem_cons_of_mem c hd),
    (BPFConst.named (h c List.mem_cons_self)).2.2.2, Option.getD_some, ← BitVec.ofNat_or]
  rfl

theorem opcodeVal_lt (op : List BPFConst) : opcodeVal op < 2 ^ 16 := by
  induction op with
  | nil => decide
  | cons c op ih =>
    refine Nat.or_lt_two_pow ?_ ih
    cases c <;> decide

/-- An integer in pieces. -/
def intPieces (n : Int) : List Piece :=
  if n < 0 then [.mark ['-'] .minus, .number n.natAbs] else [.number n.natAbs]

/-- An integer is printed as its digits, behind a minus when it is negative. -/
theorem intPieces_print (n : Int) : PrintsAs (intPieces n) (constTree n) := by
  unfold intPieces constTree
  split
  · refine ⟨by rfl, ?_, [.punct .minus, .const n.natAbs], fun more => ?_, ?_⟩
    · intro p hp
      obtain rfl := Option.some.inj hp
      exact ⟨by rfl, by rfl⟩
    · exact (expandOffsetof_cons (by simp) _).trans
        (congrArg _ (expandOffsetof_cons (by simp) more))
    · rintro t rest (rfl | rfl) <;> rfl
  · refine ⟨by rfl, ?_, [.const n.natAbs], fun more => expandOffsetof_cons (by simp) more,
      readsAs_const _⟩
    intro p hp
    obtain rfl := Option.some.inj hp
    exact ⟨by rfl, by rfl⟩

theorem constTree_int (n : Int) : (constTree n).int? = some n := by
  unfold constTree
  split
  · rw [Tree.int?]
    congr 1
    omega
  · rw [Tree.int?]
    congr 1
    omega

/-- The value of an integer in 32 bits. -/
theorem constTree_eval (env : String → Option Word) (n : Int) :
    (constTree n).eval env = some (BitVec.ofInt 32 n) := by
  unfold constTree
  split
  · rename_i hn
    have h : BitVec.ofInt 32 n = -BitVec.ofNat 32 n.natAbs := by
      rw [← BitVec.ofInt_natCast, ← BitVec.ofInt_neg]
      congr 1
      omega
    rw [h]
    rfl
  · rename_i hn
    have h : BitVec.ofInt 32 n = BitVec.ofNat 32 n.natAbs := by
      rw [← BitVec.ofInt_natCast]
      congr 1
      omega
    rw [h]
    rfl

/-- A use of `offsetof`. -/
theorem expandOffsetof_use {member : String} {n : Nat} (h : seccompDataOffset member = some n)
    (more : List Token) : expandOffsetof 0 (.ident "offsetof" :: .punct .lparen ::
      .keyword "struct" :: .ident "seccomp_data" :: .punct .comma :: .ident member ::
      .punct .rparen :: more) = .const n :: expandOffsetof 0 more := by
  have huse : offsetof? (.ident "offsetof" :: .punct .lparen :: .keyword "struct" ::
      .ident "seccomp_data" :: .punct .comma :: .ident member :: .punct .rparen :: more) =
      some n := by
    exact (if_pos rfl).trans h
  rw [expandOffsetof, huse]
  rfl

/-- `offsetof(struct seccomp_data, member)`. -/
def offsetofPieces (member : String) : List Piece :=
  [.word "offsetof", lparenPiece, .word "struct", .blank, .word "seccomp_data", commaPiece, .blank,
    .word member, rparenPiece]

/-- A `k` text in pieces. -/
def KField.pieces : KField → List Piece
  | .empty => [.number 0]
  | .int n => intPieces n
  | .argOffset i => offsetofPieces "args" ++
      [.blank, .mark ['+'] .plus, .blank, .number 8, .mark ['*'] .star, .number i]
  | .archOffset => lparenPiece :: (offsetofPieces "arch" ++ [rparenPiece])
  | .nrOffset => lparenPiece :: (offsetofPieces "nr" ++ [rparenPiece])
  | .tArch => [.word "t_arch"]
  | .upperNrLimit => [.word "upper_nr_limit"]
  | .notX32Bit => [.mark ['~'] .tilde, .word "X32_SYSCALL_BIT"]
  | .retAllow => [.word "SECCOMP_RET_ALLOW"]
  | .retKillProcess => [.word "SECCOMP_RET_KILL_PROCESS"]
  | .retTrace d => [.word "SECCOMP_RET_TRACE", .blank, barPiece, .blank, lparenPiece,
      .word "SECCOMP_RET_DATA", .blank, .mark ['&'] .amp, .blank, .number d, rparenPiece]
  | .label l => [.word l]

/-- The tree of a `k` text. -/
def KField.tree : KField → Tree
  | .empty => .num 0
  | .int n => constTree n
  | .argOffset i => .binary .add (.num 16) (.binary .mul (.num 8) (.num i))
  | .archOffset => .num 4
  | .nrOffset => .num 0
  | .tArch => .var "t_arch"
  | .upperNrLimit => .var "upper_nr_limit"
  | .notX32Bit => .unary .bitNot (.var "X32_SYSCALL_BIT")
  | .retAllow => .var "SECCOMP_RET_ALLOW"
  | .retKillProcess => .var "SECCOMP_RET_KILL_PROCESS"
  | .retTrace d => .binary .bitOr (.var "SECCOMP_RET_TRACE")
      (.binary .bitAnd (.var "SECCOMP_RET_DATA") (.num d))
  | .label l => .var l

/-- One word. -/
theorem word_print {x : String} (hx : (Piece.word x).isValid = true) (hword : word x = .ident x)
    (hne : x ≠ "offsetof") : PrintsAs [.word x] (.var x) where
  separate := by simp [CSyntax.separate, hx]
  ends p hp := by
    obtain rfl := Option.some.inj hp
    exact ⟨by rfl, by rfl⟩
  reads := by
    refine ⟨[.ident x], fun more => ?_, readsAs_ident x⟩
    have htokens : piecesTokens [.word x] = [.ident x] := by
      rw [← hword]
      rfl
    rw [htokens]
    exact expandOffsetof_cons (by simpa using hne) more

/-- `(offsetof(struct seccomp_data, member))`. -/
theorem offsetof_print {member : String} {n : Nat} (h : seccompDataOffset member = some n)
    (hvalid : (Piece.word member).isValid = true) (hword : word member = .ident member) :
    PrintsAs (lparenPiece :: (offsetofPieces member ++ [rparenPiece])) (.num n) where
  separate := by
    simp only [offsetofPieces, List.cons_append, List.nil_append, CSyntax.separate, hvalid]
    rfl
  ends p hp := by
    obtain rfl := Option.some.inj hp
    exact ⟨by rfl, by rfl⟩
  reads := by
    refine ⟨[.punct .lparen, .const n, .punct .rparen], fun more => ?_, ?_⟩
    · have htokens : piecesTokens (lparenPiece :: (offsetofPieces member ++ [rparenPiece])) ++ more =
          .punct .lparen :: .ident "offsetof" :: .punct .lparen :: .keyword "struct" ::
            .ident "seccomp_data" :: .punct .comma :: .ident member :: .punct .rparen ::
            .punct .rparen :: more := by
        rw [← hword]
        rfl
      rw [htokens, expandOffsetof_cons (by simp), expandOffsetof_use h, expandOffsetof_cons (by simp)]
      rfl
    · rintro t rest (rfl | rfl) <;> rfl

/-- **A `k` text is read as its tree.** -/
theorem KField.print {k : KField} (hk : k.isLabel = false) : PrintsAs k.pieces k.tree := by
  cases k with
  | empty => exact intPieces_print 0
  | int n => exact intPieces_print n
  | archOffset => exact offsetof_print rfl (by decide) (by decide)
  | nrOffset => exact offsetof_print rfl (by decide) (by decide)
  | tArch => exact word_print (by decide) (by decide) (by decide)
  | upperNrLimit => exact word_print (by decide) (by decide) (by decide)
  | retAllow => exact word_print (by decide) (by decide) (by decide)
  | retKillProcess => exact word_print (by decide) (by decide) (by decide)
  | label l => cases hk
  | argOffset i =>
    refine ⟨by rfl, ?_, [.const 16, .punct .plus, .const 8, .punct .star, .const i], fun more => ?_,
      ?_⟩
    · intro p hp
      obtain rfl := Option.some.inj hp
      exact ⟨by rfl, by rfl⟩
    · have htail : expandOffsetof 0 (.punct .plus :: .const 8 :: .punct .star :: .const i :: more) =
          .punct .plus :: .const 8 :: .punct .star :: .const i :: expandOffsetof 0 more := by
        simp [expandOffsetof_cons]
      exact (expandOffsetof_use rfl _).trans (congrArg _ htail)
    · rintro t rest (rfl | rfl) <;> rfl
  | notX32Bit =>
    refine ⟨by rfl, ?_, [.punct .tilde, .ident "X32_SYSCALL_BIT"], fun more => ?_, ?_⟩
    · intro p hp
      obtain rfl := Option.some.inj hp
      exact ⟨by rfl, by rfl⟩
    · refine (expandOffsetof_cons (by simp) _).trans (congrArg _ ?_)
      exact expandOffsetof_cons (by decide) more
    · rintro t rest (rfl | rfl) <;> rfl
  | retTrace d =>
    refine ⟨by rfl, ?_, [.ident "SECCOMP_RET_TRACE", .punct .bar, .punct .lparen,
      .ident "SECCOMP_RET_DATA", .punct .amp, .const d, .punct .rparen], fun more => ?_, ?_⟩
    · intro p hp
      obtain rfl := Option.some.inj hp
      exact ⟨by rfl, by rfl⟩
    · have hall : expandOffsetof 0 (.ident "SECCOMP_RET_TRACE" :: .punct .bar :: .punct .lparen ::
          .ident "SECCOMP_RET_DATA" :: .punct .amp :: .const d :: .punct .rparen :: more) =
          .ident "SECCOMP_RET_TRACE" :: .punct .bar :: .punct .lparen ::
          .ident "SECCOMP_RET_DATA" :: .punct .amp :: .const d :: .punct .rparen ::
          expandOffsetof 0 more := by
        simp [expandOffsetof_cons]
      exact hall
    · rintro t rest (rfl | rfl) <;> rfl

/-- **Its value.** -/
theorem KField.tree_eval {k : KField} (hk : k.isLabel = false) :
    k.tree.eval nameVal = some k.val := by
  cases k with
  | int n => exact constTree_eval nameVal n
  | label l => cases hk
  | argOffset i =>
    rw [KField.val, BitVec.ofNat_add, BitVec.ofNat_mul]
    rfl
  | retTrace d =>
    rfl
  | _ => decide +kernel

/-! ## The text is the text of the pieces -/

theorem piecesText_append (ps qs : List Piece) :
    piecesText (ps ++ qs) = piecesText ps ++ piecesText qs := List.flatMap_append

theorem intText_pieces (n : Int) : (intText n).toList = piecesText (intPieces n) := by
  rw [intText_toList, intPieces]
  split
  · simp [piecesText, Piece.chars]
  · simp [piecesText, Piece.chars]

theorem intText_ne (n : Int) : intText n ≠ "" := by
  intro h
  have hlist := congrArg String.toList h
  rw [intText_toList] at hlist
  split at hlist
  · exact List.cons_ne_nil _ _ hlist
  · exact Nat.toDigits_ne_nil hlist

theorem append_ne_empty {x : String} (hx : x.toList ≠ []) (y : String) : x ++ y ≠ "" := by
  intro h
  have hlist := congrArg String.toList h
  rw [String.toList_append] at hlist
  exact hx (List.append_eq_nil_iff.mp hlist).1

/-- `k`, or `0` where it is empty. -/
theorem KField.text_pieces {k : KField} (hk : k.isLabel = false) :
    (if k.text = "" then "0" else k.text).toList = piecesText k.pieces := by
  cases k with
  | int n => exact (congrArg String.toList (if_neg (intText_ne n))).trans (intText_pieces n)
  | label l => cases hk
  | argOffset i =>
    have htext : (KField.argOffset i).text =
        "offsetof(struct seccomp_data, args) + 8*" ++ i.repr := rfl
    have hfixed : "offsetof(struct seccomp_data, args) + 8*".toList = piecesText
        (offsetofPieces "args" ++ [.blank, .mark ['+'] .plus, .blank, .number 8, .mark ['*'] .star]) := by
      decide +kernel
    rw [htext, if_neg (append_ne_empty (by decide) _), String.toList_append, hfixed,
      Nat.toList_repr]
    have hpieces : (KField.argOffset i).pieces = (offsetofPieces "args" ++
        [.blank, .mark ['+'] .plus, .blank, .number 8, .mark ['*'] .star]) ++ [.number i] := rfl
    rw [hpieces, piecesText_append _ [.number i]]
    simp [piecesText, Piece.chars]
  | retTrace d =>
    have htext : (KField.retTrace d).text =
        "SECCOMP_RET_TRACE | (SECCOMP_RET_DATA & " ++ (d.repr ++ ")") := String.append_assoc
    have hfixed : "SECCOMP_RET_TRACE | (SECCOMP_RET_DATA & ".toList = piecesText
        [.word "SECCOMP_RET_TRACE", .blank, barPiece, .blank, lparenPiece,
          .word "SECCOMP_RET_DATA", .blank, .mark ['&'] .amp, .blank] := by
      decide +kernel
    rw [htext, if_neg (append_ne_empty (by decide) _), String.toList_append, String.toList_append,
      hfixed, Nat.toList_repr]
    have hpieces : (KField.retTrace d).pieces = [.word "SECCOMP_RET_TRACE", .blank, barPiece,
        .blank, lparenPiece, .word "SECCOMP_RET_DATA", .blank, .mark ['&'] .amp, .blank] ++
        [.number d, rparenPiece] := rfl
    rw [hpieces, piecesText_append _ [.number d, rparenPiece]]
    simp [piecesText, Piece.chars, rparenPiece]
  | empty => decide +kernel
  | archOffset => decide +kernel
  | nrOffset => decide +kernel
  | tArch => decide +kernel
  | upperNrLimit => decide +kernel
  | notX32Bit => decide +kernel
  | retAllow => decide +kernel
  | retKillProcess => decide +kernel

/-- The text of an opcode string is that of its pieces. -/
theorem barText_pieces (c : BPFConst) (cs : List BPFConst) :
    (barText (c :: cs)).toList = piecesText (opcodePieces c cs) := by
  induction cs generalizing c with
  | nil => simp [barText, opcodePieces, piecesText, Piece.chars]
  | cons d cs ih =>
    rw [barText, String.toList_append, String.toList_append, ih, opcodePieces_cons, List.append_assoc]
    · rfl
    · exact List.cons_ne_nil _ _

/-- The opcode string of a filter in pieces. -/
def opcodeParts (op : List BPFConst) : List Piece :=
  if op = [.ST, .W] then [.word "BPF_ST", .blank, barPiece, .blank, .blank, .word "BPF_W"]
  else
    match op with
    | [] => []
    | c :: cs => opcodePieces c cs

/-- Its tree. -/
def opTree : List BPFConst → Tree
  | [] => .num 0
  | c :: cs => opcodeTree c cs

/-- An opcode string of names that the headers define. -/
structure NamedOpcode (op : List BPFConst) : Prop where
  ne : op ≠ []
  named : ∀ c ∈ op, c.isNamed = true

theorem NamedOpcode.text {op : List BPFConst} (h : NamedOpcode op) :
    (opcodeText op).toList = piecesText (opcodeParts op) := by
  unfold opcodeText opcodeParts
  split
  · decide +kernel
  · cases op with
    | nil => exact absurd rfl h.ne
    | cons c cs => exact barText_pieces c cs

/-- An opcode string is printed as its tree. -/
theorem NamedOpcode.print {op : List BPFConst} (h : NamedOpcode op) :
    PrintsAs (opcodeParts op) (opTree op) := by
  unfold opcodeParts
  split
  · rename_i hst
    subst hst
    refine ⟨by decide, ?_, barTokens "BPF_ST" ["BPF_W"], fun more => ?_, readsAs_bars _ _⟩
    · intro p hp
      obtain rfl := Option.some.inj hp
      exact ⟨by decide, by decide⟩
    · have hall : expandOffsetof 0 (.ident "BPF_ST" :: .punct .bar :: .ident "BPF_W" :: more) =
          .ident "BPF_ST" :: .punct .bar :: .ident "BPF_W" :: expandOffsetof 0 more := by
        simp [expandOffsetof_cons]
      exact hall
  · cases op with
    | nil => exact absurd rfl h.ne
    | cons c cs => exact opcodePieces_print h.named

/-- The tree of an opcode string has its value. -/
theorem NamedOpcode.eval {op : List BPFConst} (h : NamedOpcode op) :
    (opTree op).eval nameVal = some (BitVec.ofNat 32 (opcodeVal op)) := by
  cases op with
  | nil => exact absurd rfl h.ne
  | cons c cs => exact opcodeTree_eval h.named

/-! ## The filters -/

/-- The filter compiles to its instruction: its opcode names constants of the headers, no label is
left, and its jumps are bytes. -/
inductive BPFFilter.Compiles : BPFFilter → Prop
  | stmt {op : List BPFConst} {k : KField} : NamedOpcode op → k.isLabel = false →
    Compiles (.stmt op k)
  | jump {op : List BPFConst} {k : KField} {a b : Int} : NamedOpcode op → k.isLabel = false →
    0 ≤ a ∧ a ≤ 255 → 0 ≤ b ∧ b ≤ 255 → Compiles (.jump op k (.num a) (.num b))

/-- The arguments of its macro: their pieces and their trees. -/
def BPFFilter.args : BPFFilter → List (List Piece × Tree)
  | .label _ => []
  | .stmt op k => [(opcodeParts op, opTree op), (k.pieces, k.tree)]
  | .jump op k (.num a) (.num b) => [(opcodeParts op, opTree op), (k.pieces, k.tree),
      (intPieces a, constTree a), (intPieces b, constTree b)]
  | .jump .. => []

/-- Its macro. -/
def BPFFilter.macroName : BPFFilter → String
  | .label _ => ""
  | .stmt .. => "BPF_STMT"
  | .jump .. => "BPF_JUMP"

/-- The filter in pieces. -/
def BPFFilter.pieces (f : BPFFilter) : List Piece :=
  .word f.macroName :: lparenPiece :: (argsPieces (f.args.map Prod.fst) ++ [rparenPiece])

/-- The use of its macro. -/
def BPFFilter.tree (f : BPFFilter) : Tree := .call (.var f.macroName) (f.args.map Prod.snd)

/-- **A filter is printed** as a use of its macro. -/
theorem BPFFilter.Compiles.print {f : BPFFilter} (h : f.Compiles) : PrintsAs f.pieces f.tree := by
  have hargs : ∀ a ∈ f.args, PrintsAs a.1 a.2 := by
    cases h with
    | stmt hop hk =>
      simp only [BPFFilter.args, List.forall_mem_cons]
      exact ⟨hop.print, KField.print hk, List.forall_mem_nil _⟩
    | @jump _ _ a b hop hk _ _ =>
      simp only [BPFFilter.args, List.forall_mem_cons]
      exact ⟨hop.print, KField.print hk, intPieces_print a, intPieces_print b, List.forall_mem_nil _⟩
  cases h with
  | stmt _ _ =>
    exact @macro_print "BPF_STMT" (by decide) (by decide) (by decide) _ (List.cons_ne_nil _ _) hargs
  | jump _ _ _ _ =>
    exact @macro_print "BPF_JUMP" (by decide) (by decide) (by decide) _ (List.cons_ne_nil _ _) hargs

theorem initialiserInsn_stmt (code k : Tree) :
    initialiserInsn (.call (.var "BPF_STMT") [code, k]) =
      (code.eval nameVal).bind fun c => (k.eval nameVal).map fun k =>
        ⟨(c.setWidth 16).toNat, k, some 0, some 0⟩ := rfl

theorem initialiserInsn_jump (code k jt jf : Tree) :
    initialiserInsn (.call (.var "BPF_JUMP") [code, k, jt, jf]) =
      (code.eval nameVal).bind fun c => (k.eval nameVal).bind fun k =>
        jt.int?.bind fun jt => jf.int?.map fun jf =>
          ⟨(c.setWidth 16).toNat, k, some (jt % 256), some (jf % 256)⟩ := rfl

/-- **It is read as its instruction.** -/
theorem BPFFilter.Compiles.insn {f : BPFFilter} (h : f.Compiles) :
    initialiserInsn f.tree = some f.insn := by
  have hcode : ∀ op, ((BitVec.ofNat 32 (opcodeVal op)).setWidth 16).toNat = opcodeVal op := by
    intro op
    have hlt := opcodeVal_lt op
    rw [BitVec.toNat_setWidth, BitVec.toNat_ofNat]
    omega
  cases h with
  | stmt hop hk =>
    refine (initialiserInsn_stmt _ _).trans ?_
    rw [hop.eval, KField.tree_eval hk, Option.bind_some, Option.map_some, hcode]
    rfl
  | jump hop hk ha hb =>
    refine (initialiserInsn_jump _ _ _ _).trans ?_
    rw [hop.eval, KField.tree_eval hk, constTree_int, constTree_int, Option.bind_some,
      Option.bind_some, Option.bind_some, Option.map_some, hcode,
      Int.emod_eq_of_lt ha.1 (by omega), Int.emod_eq_of_lt hb.1 (by omega)]
    rfl

/-- A number as a jump field. -/
theorem printed_num (n : Int) :
    (Target.num n).printed.toList = ',' :: ' ' :: piecesText (intPieces n) := by
  have hprinted : (Target.num n).printed = ", " ++ intText n := if_neg (intText_ne n)
  rw [hprinted, String.toList_append, intText_pieces]
  rfl

/-- What `StringfyBPF_Filter` prints is the text of the pieces. -/
theorem BPFFilter.Compiles.text {f : BPFFilter} (h : f.Compiles) :
    (stringfyBPF_Filter f).toList = piecesText f.pieces := by
  have hopen : ∀ x : String, piecesText [.word x, lparenPiece] = x.toList ++ ['('] := fun _ => rfl
  cases h with
  | @stmt op k hop hk =>
    have hpieces : (BPFFilter.stmt op k).pieces = [.word "BPF_STMT", lparenPiece] ++
        (opcodeParts op ++ ([commaPiece, .blank] ++ (k.pieces ++ [rparenPiece]))) := by
      simp [BPFFilter.pieces, BPFFilter.macroName, BPFFilter.args, argsPieces]
    rw [hpieces, piecesText_append, piecesText_append, piecesText_append, piecesText_append,
      ← hop.text, ← KField.text_pieces hk, stringfyBPF_Filter]
    simp only [String.toList_append, List.append_assoc]
    rfl
  | @jump op k a b hop hk _ _ =>
    have hpieces : (BPFFilter.jump op k (.num a) (.num b)).pieces =
        [.word "BPF_JUMP", lparenPiece] ++ (opcodeParts op ++ ([commaPiece, .blank] ++
          (k.pieces ++ ([commaPiece, .blank] ++ (intPieces a ++ ([commaPiece, .blank] ++
            (intPieces b ++ [rparenPiece]))))))) := by
      simp [BPFFilter.pieces, BPFFilter.macroName, BPFFilter.args, argsPieces]
    rw [hpieces]
    simp only [piecesText_append]
    rw [← hop.text, ← KField.text_pieces hk, stringfyBPF_Filter]
    simp only [String.toList_append, List.append_assoc, printed_num]
    rfl

/-! ## The list -/

/-- The line of a filter. -/
def linePieces (f : BPFFilter) : List Piece :=
  List.replicate 8 .blank ++ (f.pieces ++ [commaPiece, .newline])

/-- What is printed of a list is the text of its lines. -/
theorem filterText_pieces {fs : List BPFFilter} (h : ∀ f ∈ fs, f.Compiles) :
    (filterText fs).toList = piecesText (fs.flatMap linePieces) := by
  induction fs with
  | nil => rfl
  | cons f fs ih =>
    rw [filterText, List.flatMap_cons, piecesText_append, linePieces, piecesText_append,
      piecesText_append, ← ih fun g hg => h g (List.mem_cons_of_mem f hg),
      ← (h f List.mem_cons_self).text]
    simp only [String.toList_append, List.append_assoc]
    rfl

theorem linePieces_separate {f : BPFFilter} (h : f.Compiles) : separate (linePieces f) = true := by
  have hprint := h.print
  refine separate_append (by decide) (separate_append hprint.separate (by decide) ?_) ?_
  · intro p hp q hq
    obtain rfl := Option.some.inj hq
    exact (hprint.ends p hp).1
  · intro p hp q hq
    obtain rfl := Option.some.inj hp
    rfl

/-- No line goes on with the next one. -/
theorem filterPieces_separate {fs : List BPFFilter} (h : ∀ f ∈ fs, f.Compiles) :
    separate (fs.flatMap linePieces) = true := by
  induction fs with
  | nil => rfl
  | cons f fs ih =>
    rw [List.flatMap_cons]
    refine separate_append (linePieces_separate (h f List.mem_cons_self))
      (ih fun g hg => h g (List.mem_cons_of_mem f hg)) fun p hp q hq => ?_
    cases fs with
    | nil => cases hq
    | cons g gs =>
      obtain rfl := Option.some.inj hq
      exact before_blank p

/-- The tokens of the lines, as initialisers. -/
theorem filterPieces_expand {fs : List BPFFilter} (h : ∀ f ∈ fs, f.Compiles) :
    ∃ es : List (List Token × Tree), es.map Prod.snd = fs.map BPFFilter.tree ∧
      (∀ e ∈ es, ReadsAs e.1 e.2) ∧
      expandOffsetof 0 (piecesTokens (fs.flatMap linePieces)) =
        es.flatMap fun e => e.1 ++ [.punct .comma] := by
  induction fs with
  | nil => exact ⟨[], rfl, fun _ h => absurd h List.not_mem_nil, rfl⟩
  | cons f fs ih =>
    obtain ⟨es, hes, hall, hexp⟩ := ih fun g hg => h g (List.mem_cons_of_mem f hg)
    obtain ⟨ts, hts, hreads⟩ := (h f List.mem_cons_self).print.reads
    refine ⟨(ts, f.tree) :: es, by rw [List.map_cons, hes]; rfl, ?_, ?_⟩
    · intro e he
      rcases List.mem_cons.mp he with rfl | he
      · exact hreads
      · exact hall e he
    · have htokens : piecesTokens ((f :: fs).flatMap linePieces) =
          piecesTokens f.pieces ++ .punct .comma :: piecesTokens (fs.flatMap linePieces) := by
        simp [piecesTokens, linePieces, commaPiece, Piece.tokens, List.replicate]
      rw [htokens, hts, expandOffsetof_cons (by simp), hexp]
      simp

/-- Every line has a token. -/
theorem length_le_tokens (fs : List BPFFilter) :
    fs.length ≤ (piecesTokens (fs.flatMap linePieces)).length := by
  induction fs with
  | nil => exact Nat.zero_le _
  | cons f fs ih =>
    rw [List.flatMap_cons, piecesTokens, List.flatMap_append, List.length_append]
    have hline : 0 < ((linePieces f).flatMap Piece.tokens).length := by
      simp [linePieces, commaPiece, Piece.tokens, List.replicate]
    unfold piecesTokens at ih
    rw [List.length_cons]
    omega

/-- The trees of a list have the values of its program. -/
theorem initialiserInsns_tree {fs : List BPFFilter} (h : ∀ f ∈ fs, f.Compiles) :
    initialiserInsns (fs.map BPFFilter.tree) = some (program fs) := by
  induction fs with
  | nil => rfl
  | cons f fs ih =>
    rw [List.map_cons, initialiserInsns, (h f List.mem_cons_self).insn,
      ih fun g hg => h g (List.mem_cons_of_mem f hg)]
    rfl

/-- **The text is the program**: what is printed of filters that compile is read back as their
program. -/
theorem filterText_program {fs : List BPFFilter} (h : ∀ f ∈ fs, f.Compiles) :
    readFilter (filterText fs).toList = some (program fs) := by
  obtain ⟨es, hes, hall, hexp⟩ := filterPieces_expand h
  have hlen : es.length = fs.length := by
    have := congrArg List.length hes
    simpa using this
  have hlex := lex_pieces (filterPieces_separate h)
  unfold whiteText at hlex
  rw [← filterText_pieces h] at hlex
  unfold readFilter
  rw [hlex, Option.bind_some, hexp, initialisers_read hall (hlen ▸ length_le_tokens fs),
    Option.bind_some, hes, initialiserInsns_tree h]

example : readFilter (filterText [.stmt [.LD, .W, .ABS] .nrOffset,
    .jump [.JMP, .JEQ, .K] (.int 2) (.num 0) (.num 3)]).toList =
    some [⟨0x20, 0, some 0, some 0⟩, ⟨0x15, 2, some 0, some 3⟩] := by decide +kernel

end SeccompPolicy
