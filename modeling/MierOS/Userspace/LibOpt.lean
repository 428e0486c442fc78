/-
  MierOS.Userspace.LibOpt
  **COMMAND LINE PARSING**: `get_next_option` of `libopt.c`.

  The position is an argument index, already past the argument being parsed, and a
  pointer into a cluster of short options.  Every call first compares the index
  with `argc`, and only there: what is left of a cluster in the last argument is
  lost, and a lone `-` makes the next argument be read whether there is one or
  not.

  Main result: `libopt_reads_iff`.
-/
import Mathlib.Data.List.TakeWhile
import Mathlib.Tactic.Push

namespace MierOS.Userspace.LibOpt

/-! ## §1. The code. -/

abbrev Byte := UInt8

/-- The bytes of a string in front of its terminator. -/
abbrev CString := List Byte

/-- `'-'`. -/
def dash : Byte := 45

/-- What `get_next_option` returns besides short options: `-1`, `-2` and 0. -/
def ended : Byte := 255
def unknown : Byte := 254
def argument : Byte := 0

/-- `struct option`. -/
structure OptionEntry where
  shortOpt : Byte
  longOpt : CString
  argCount : Nat
  deriving Repr, DecidableEq

/-- `struct argument_parsing_context`; `argc` is the length of `argv`, and pointers into
`argv` are indices. -/
structure Context where
  options : List OptionEntry
  argv : List CString
  currentArg : Nat
  currentShortNameParse : Option CString
  currentOptArgPtr : Option Nat
  deriving Repr, DecidableEq

/-- `start_arg_parse`. -/
def startArgParse (options : List OptionEntry) (argv : List CString) : Context :=
  ⟨options, argv, 1, none, none⟩

/-- The loops over the options, which end at a `short_opt` of 0. -/
def findOption (options : List OptionEntry) (p : OptionEntry → Bool) : Option OptionEntry :=
  (options.takeWhile (fun opt => opt.shortOpt != 0)).find? p

namespace Context

/-- The option's arguments; `none` when `currentArg + arg_count` overflows an `int`. -/
def takeArguments (ctx : Context) (argCount : Nat) : Option Context :=
  if argCount > 0 ∧ ctx.currentArg < ctx.argv.length then
    if 2147483648 ≤ ctx.currentArg + argCount then none
    else if ctx.currentArg + argCount ≤ ctx.argv.length then
      some { ctx with
        currentOptArgPtr := some ctx.currentArg, currentArg := ctx.currentArg + argCount }
    else some { ctx with currentOptArgPtr := none }
  else some { ctx with currentOptArgPtr := none }

/-- A short option, with the rest of its cluster. -/
def shortOption (ctx : Context) (c : Byte) (rest : CString) : Option (Context × Byte) :=
  let ctx := { ctx with currentShortNameParse := some rest }
  match findOption ctx.options (fun opt => opt.shortOpt == c) with
  | some opt => (ctx.takeArguments opt.argCount).map (fun ctx => (ctx, c))
  | none => some (ctx, unknown)

def longOption (ctx : Context) (name : CString) : Option (Context × Byte) :=
  match findOption ctx.options (fun opt => opt.longOpt == name) with
  | some opt => (ctx.takeArguments opt.argCount).map (fun ctx => (ctx, opt.shortOpt))
  | none => some (ctx, unknown)

/-- From `argv[currentArg++]` on, with the arguments from `currentArg` on; `none` when
`argv[argc]` is read.  The jump back to `shortOptParse` finds a character, or the end of
a lone `-`, and then the next argument is read. -/
def readArgument (ctx : Context) : List CString → Option (Context × Byte)
  | [] => none
  | arg :: args =>
      let ctx := { ctx with currentArg := ctx.currentArg + 1, currentShortNameParse := none }
      match arg with
      | [] => some ({ ctx with currentOptArgPtr := some (ctx.currentArg - 1) }, argument)
      | a :: arg =>
          if a = dash then
            match arg with
            | [] => ctx.readArgument args
            | c :: rest => if c = dash then ctx.longOption rest else ctx.shortOption c rest
          else some ({ ctx with currentOptArgPtr := some (ctx.currentArg - 1) }, argument)

/-- `get_next_option`. -/
def getNextOption (ctx : Context) : Option (Context × Byte) :=
  if ctx.argv.length ≤ ctx.currentArg then some (ctx, ended)
  else match ctx.currentShortNameParse with
    | some (c :: rest) => ctx.shortOption c rest
    | _ => ctx.readArgument (ctx.argv.drop ctx.currentArg)

/-- `get_option_arguments`. -/
def getOptionArguments (ctx : Context) : Option Nat := ctx.currentOptArgPtr

end Context

/-- What the caller sees of a call: the code, and the arguments, which mean nothing with
`-2`. -/
structure Result where
  code : Byte
  arguments : Option Nat
  deriving Repr, DecidableEq

def result (code : Byte) (arguments : Option Nat) : Result :=
  ⟨code, if code = unknown then none else arguments⟩

/-- The results up to `-1`, for at most `n` calls. -/
def results : Nat → Context → Option (List Result)
  | 0, _ => none
  | n + 1, ctx =>
      match ctx.getNextOption with
      | none => none
      | some (ctx, code) =>
          if code = ended then some []
          else (results n ctx).map (fun rs => result code ctx.getOptionArguments :: rs)

/-! ## §2. The reference reading. -/

/-- What stands on a command line. -/
inductive Token where
  | short (c : Byte)
  | long (name : CString)
  | plain (position : Nat)
  deriving Repr, DecidableEq

/-- What is left to read: of a cluster, and the arguments from `position` on. -/
structure Rest where
  cluster : CString
  position : Nat
  args : List CString
  deriving Repr, DecidableEq

/-- The token of the first argument.  A lone `-` is an argument like others, or a cluster
of no options. -/
def argToken (dashIsArgument : Bool) : Nat → List CString → Option (Token × Rest)
  | _, [] => none
  | i, arg :: args =>
      match arg with
      | [] => some (.plain i, ⟨[], i + 1, args⟩)
      | a :: arg =>
          if a = dash then
            match arg with
            | [] =>
                if dashIsArgument then some (.plain i, ⟨[], i + 1, args⟩)
                else argToken dashIsArgument (i + 1) args
            | c :: rest =>
                if c = dash then some (.long rest, ⟨[], i + 1, args⟩)
                else some (.short c, ⟨rest, i + 1, args⟩)
          else some (.plain i, ⟨[], i + 1, args⟩)

/-- **The next token**, from left to right. -/
def Rest.token (dashIsArgument : Bool) (st : Rest) : Option (Token × Rest) :=
  match st.cluster with
  | c :: rest => some (.short c, { st with cluster := rest })
  | [] => argToken dashIsArgument st.position st.args

/-- The option that a token names. -/
def Token.option (options : List OptionEntry) : Token → Option OptionEntry
  | .short c => findOption options (fun opt => opt.shortOpt == c)
  | .long name => findOption options (fun opt => opt.longOpt == name)
  | .plain _ => none

/-- **What a token yields**: an option takes as many arguments as it has, when that many
are left. -/
def Token.yields (options : List OptionEntry) (st : Rest) (tok : Token) : Result × Rest :=
  match tok with
  | .plain i => (result argument (some i), st)
  | _ =>
      match tok.option options with
      | none => (result unknown none, st)
      | some opt =>
          if 0 < opt.argCount ∧ opt.argCount ≤ st.args.length then
            (result opt.shortOpt (some st.position),
              ⟨st.cluster, st.position + opt.argCount, st.args.drop opt.argCount⟩)
          else (result opt.shortOpt none, st)

/-- **The reading of a command line**, up to `-1`. -/
inductive Reads (dashIsArgument : Bool) (options : List OptionEntry) : Rest → List Result → Prop
  | done {st : Rest} (h : st.token dashIsArgument = none) : Reads dashIsArgument options st []
  | ended {st st' : Rest} {tok : Token} (h : st.token dashIsArgument = some (tok, st'))
      (hcode : (tok.yields options st').1.code = ended) : Reads dashIsArgument options st []
  | next {st st' : Rest} {tok : Token} {rs : List Result}
      (h : st.token dashIsArgument = some (tok, st'))
      (hcode : (tok.yields options st').1.code ≠ ended)
      (hrest : Reads dashIsArgument options (tok.yields options st').2 rs) :
      Reads dashIsArgument options st ((tok.yields options st').1 :: rs)

/-- What is left to read for a context. -/
def Context.rest (ctx : Context) : Rest :=
  ⟨ctx.currentShortNameParse.getD [], ctx.currentArg, ctx.argv.drop ctx.currentArg⟩

/-- **What the calls should return**: after finitely many of them `-1`, and before that the
reading of `argv[1..]`. -/
def Parses (dashIsArgument : Bool) (options : List OptionEntry) (argv : List CString) : Prop :=
  ∃ n rs, results n (startArgParse options argv) = some rs
    ∧ Reads dashIsArgument options (startArgParse options argv).rest rs

/-! ## §3. The condition. -/

/-- The count of a token's arguments does not overflow where it is added to the
position. -/
def Token.Fits (options : List OptionEntry) (st : Rest) (tok : Token) : Prop :=
  ∀ opt, tok.option options = some opt → 0 < opt.argCount → st.args ≠ [] →
    st.position + opt.argCount < 2147483648

/-- No lone `-` comes next, or it is not an argument. -/
def Rest.NoDash (dashIsArgument : Bool) (st : Rest) : Prop :=
  dashIsArgument = true → st.cluster = [] → st.args.head? ≠ some [dash]

/-- **The condition on a command line**, along its reading: while something is left to
read there is an argument left, which is no lone `-`, and no count overflows.  Only an
option `-1` may be read off a cluster with no argument left. -/
inductive Meets (dashIsArgument : Bool) (options : List OptionEntry) : Rest → Prop
  | done {st : Rest} (hcluster : st.cluster = []) (hargs : st.args = []) : Meets dashIsArgument options st
  | lost {st st' : Rest} {tok : Token} (h : st.token dashIsArgument = some (tok, st')) (hargs : st.args = [])
      (hcode : (tok.yields options st').1.code = ended) : Meets dashIsArgument options st
  | ended {st st' : Rest} {tok : Token} (h : st.token dashIsArgument = some (tok, st')) (hargs : st.args ≠ [])
      (hdash : st.NoDash dashIsArgument) (hfits : tok.Fits options st')
      (hcode : (tok.yields options st').1.code = ended) : Meets dashIsArgument options st
  | next {st st' : Rest} {tok : Token} (h : st.token dashIsArgument = some (tok, st')) (hargs : st.args ≠ [])
      (hdash : st.NoDash dashIsArgument) (hfits : tok.Fits options st')
      (hcode : (tok.yields options st').1.code ≠ ended)
      (hrest : Meets dashIsArgument options (tok.yields options st').2) : Meets dashIsArgument options st

/-! ## §4. A call and the next token. -/

section Calls

variable {ctx : Context} {options : List OptionEntry} {st st' : Rest} {tok : Token}

/-- A call does what the token `tok` yields with `st` left behind it. -/
structure Does (ctx : Context) (tok : Token) (st : Rest) (r : Option (Context × Byte)) : Prop where
  fits : tok.Fits ctx.options st → ∃ ctx', r = some (ctx', (tok.yields ctx.options st).1.code)
    ∧ result (tok.yields ctx.options st).1.code ctx'.currentOptArgPtr = (tok.yields ctx.options st).1
    ∧ ctx'.rest = (tok.yields ctx.options st).2 ∧ ctx'.options = ctx.options
  overflow : ¬ tok.Fits ctx.options st → r = none

theorem rest_args_eq_nil_iff : ctx.rest.args = [] ↔ ctx.argv.length ≤ ctx.currentArg := List.drop_eq_nil_iff

theorem length_rest_args (ctx : Context) : ctx.rest.args.length = ctx.argv.length - ctx.currentArg :=
  List.length_drop

theorem findOption_some {p : OptionEntry → Bool} {opt : OptionEntry} (h : findOption options p = some opt) :
    p opt = true ∧ opt.shortOpt ≠ 0 := by
  refine ⟨List.find?_some h, ?_⟩
  have hmem := List.mem_takeWhile_imp (List.mem_of_find?_eq_some h)
  simpa using hmem

/-- **The arguments of an option**, when the sum does not overflow. -/
theorem takeArguments_fits {n : Nat} (hfits : 0 < n → ctx.rest.args ≠ [] → ctx.currentArg + n < 2147483648) :
    ctx.takeArguments n = some (if 0 < n ∧ n ≤ ctx.rest.args.length
      then { ctx with currentOptArgPtr := some ctx.currentArg, currentArg := ctx.currentArg + n }
      else { ctx with currentOptArgPtr := none }) := by
  have hlen := length_rest_args ctx
  unfold Context.takeArguments
  by_cases hasks : n > 0 ∧ ctx.currentArg < ctx.argv.length
  · have hne : ctx.rest.args ≠ [] := by
      rw [Ne, rest_args_eq_nil_iff]
      omega
    have hsum := hfits hasks.1 hne
    rw [if_pos hasks, if_neg (by omega)]
    by_cases hleft : ctx.currentArg + n ≤ ctx.argv.length
    · rw [if_pos hleft, if_pos (by omega)]
    · rw [if_neg hleft, if_neg (by omega)]
  · rw [if_neg hasks, if_neg (by omega)]

theorem takeArguments_overflow {n : Nat} (hpos : 0 < n) (hne : ctx.rest.args ≠ [])
    (hsum : 2147483648 ≤ ctx.currentArg + n) : ctx.takeArguments n = none := by
  rw [Ne, rest_args_eq_nil_iff] at hne
  unfold Context.takeArguments
  rw [if_pos (by omega), if_pos hsum]

/-- **An option**, short or long, looked up and given its arguments. -/
theorem does_option (ctx : Context) (tok : Token) (hplain : ∀ i, tok ≠ .plain i) :
    Does ctx tok ctx.rest (match tok.option ctx.options with
      | some opt => (ctx.takeArguments opt.argCount).map (fun ctx => (ctx, opt.shortOpt))
      | none => some (ctx, unknown)) := by
  have hyields : tok.yields ctx.options ctx.rest = match tok.option ctx.options with
      | none => (result unknown none, ctx.rest)
      | some opt =>
          if 0 < opt.argCount ∧ opt.argCount ≤ ctx.rest.args.length then
            (result opt.shortOpt (some ctx.rest.position), ⟨ctx.rest.cluster,
              ctx.rest.position + opt.argCount, ctx.rest.args.drop opt.argCount⟩)
          else (result opt.shortOpt none, ctx.rest) := by
    cases tok with
    | plain i => exact absurd rfl (hplain i)
    | short c => rfl
    | long name => rfl
  cases hopt : tok.option ctx.options with
  | none =>
      rw [hopt] at hyields
      refine ⟨fun _ => ⟨ctx, ?_⟩, fun hno => absurd (fun opt h => ?_) hno⟩
      · rw [hyields]
        exact ⟨rfl, rfl, rfl, rfl⟩
      · rw [hopt] at h
        cases h
  | some opt =>
      rw [hopt] at hyields
      dsimp only at hyields ⊢
      constructor
      · intro hfits
        have htake := takeArguments_fits (hfits opt hopt)
        rw [htake, hyields, Option.map_some]
        by_cases hleft : 0 < opt.argCount ∧ opt.argCount ≤ ctx.rest.args.length
        · rw [if_pos hleft, if_pos hleft]
          refine ⟨_, rfl, rfl, ?_, rfl⟩
          show Rest.mk _ _ _ = Rest.mk _ _ _
          congr 1
          exact (List.drop_drop).symm
        · rw [if_neg hleft, if_neg hleft]
          exact ⟨_, rfl, rfl, rfl, rfl⟩
      · intro hno
        unfold Token.Fits at hno
        push Not at hno
        obtain ⟨opt', h, hpos, hne, hsum⟩ := hno
        rw [hopt] at h
        cases h
        rw [takeArguments_overflow hpos hne hsum]
        rfl

theorem does_short (ctx : Context) (c : Byte) (rest : CString) :
    Does ctx (.short c) ⟨rest, ctx.currentArg, ctx.argv.drop ctx.currentArg⟩ (ctx.shortOption c rest) := by
  have hdoes := does_option { ctx with currentShortNameParse := some rest } (.short c)
    (fun i h => by cases h)
  have hsame : ctx.shortOption c rest = (match (Token.short c).option ctx.options with
      | some opt => (Context.takeArguments { ctx with currentShortNameParse := some rest } opt.argCount).map
          (fun ctx => (ctx, opt.shortOpt))
      | none => some ({ ctx with currentShortNameParse := some rest }, unknown)) := by
    unfold Context.shortOption Token.option
    dsimp only
    cases hfind : findOption ctx.options (fun opt => opt.shortOpt == c) with
    | none => rfl
    | some opt =>
        -- the option found is the character
        have hc : opt.shortOpt = c := by
          have hp := (findOption_some hfind).1
          simpa using hp
        dsimp only
        rw [hc]
  rw [hsame]
  exact ⟨hdoes.fits, hdoes.overflow⟩

theorem does_long (ctx : Context) (name : CString) (h : ctx.currentShortNameParse = none) :
    Does ctx (.long name) ⟨[], ctx.currentArg, ctx.argv.drop ctx.currentArg⟩ (ctx.longOption name) := by
  have hdoes := does_option ctx (.long name) (fun i h => by cases h)
  have hrest : ctx.rest = ⟨[], ctx.currentArg, ctx.argv.drop ctx.currentArg⟩ := by
    unfold Context.rest
    rw [h]
    rfl
  rw [hrest] at hdoes
  exact hdoes

/-- **The arguments from the position on**, in a reading where a lone `-` is no argument. -/
theorem readArgument_spec (args : List CString) (ctx : Context)
    (hargs : args = ctx.argv.drop ctx.currentArg) :
    match argToken false ctx.currentArg args with
    | none => ctx.readArgument args = none
    | some (tok, st) => Does ctx tok st (ctx.readArgument args) := by
  induction args generalizing ctx with
  | nil => rfl
  | cons arg args ih =>
      have hdrop : args = ctx.argv.drop (ctx.currentArg + 1) := by
        rw [← List.drop_drop, ← hargs]
        rfl
      have hplain : Does ctx (.plain ctx.currentArg) ⟨[], ctx.currentArg + 1, args⟩
          (some ({ ctx with currentArg := ctx.currentArg + 1, currentShortNameParse := none,
                            currentOptArgPtr := some ctx.currentArg }, argument)) := by
        refine ⟨fun _ => ⟨_, rfl, rfl, ?_, rfl⟩, fun hno => absurd (fun opt h => ?_) hno⟩
        · show Rest.mk [] (ctx.currentArg + 1) (ctx.argv.drop (ctx.currentArg + 1)) = _
          rw [← hdrop]
          rfl
        · cases h
      unfold argToken Context.readArgument
      cases arg with
      | nil => exact hplain
      | cons a arg =>
          dsimp only
          by_cases ha : a = dash
          · rw [if_pos ha, if_pos ha]
            cases arg with
            | nil =>
                -- a lone dash: on with the next argument
                dsimp only
                rw [if_neg Bool.false_ne_true]
                have hnext := ih { ctx with currentArg := ctx.currentArg + 1, currentShortNameParse := none }
                  hdrop
                dsimp only at hnext
                cases htok : argToken false (ctx.currentArg + 1) args with
                | none =>
                    rw [htok] at hnext
                    exact hnext
                | some r =>
                    rw [htok] at hnext
                    exact ⟨hnext.fits, hnext.overflow⟩
            | cons c rest =>
                dsimp only
                by_cases hc : c = dash
                · rw [if_pos hc, if_pos hc, hdrop]
                  have hlong := does_long
                    { ctx with currentArg := ctx.currentArg + 1, currentShortNameParse := none } rest rfl
                  exact ⟨hlong.fits, hlong.overflow⟩
                · rw [if_neg hc, if_neg hc, hdrop]
                  have hshort := does_short
                    { ctx with currentArg := ctx.currentArg + 1, currentShortNameParse := none } c rest
                  exact ⟨hshort.fits, hshort.overflow⟩
          · rw [if_neg ha, if_neg ha]
            exact hplain

/-- **A call**, with an argument left. -/
theorem getNextOption_spec (ctx : Context) (hargs : ctx.rest.args ≠ []) :
    match ctx.rest.token false with
    | none => ctx.getNextOption = none
    | some (tok, st) => Does ctx tok st ctx.getNextOption := by
  have hlt : ¬ ctx.argv.length ≤ ctx.currentArg := fun hle => hargs (rest_args_eq_nil_iff.mpr hle)
  unfold Rest.token Context.getNextOption
  rw [if_neg hlt]
  cases hname : ctx.currentShortNameParse with
  | none =>
      rw [show ctx.rest.cluster = [] by unfold Context.rest; rw [hname]; rfl]
      exact readArgument_spec _ ctx rfl
  | some name =>
      cases name with
      | nil =>
          rw [show ctx.rest.cluster = [] by unfold Context.rest; rw [hname]; rfl]
          exact readArgument_spec _ ctx rfl
      | cons c rest =>
          rw [show ctx.rest.cluster = c :: rest by unfold Context.rest; rw [hname]; rfl]
          exact does_short ctx c rest

/-- With no argument left a call ends the parse. -/
theorem getNextOption_ended (hargs : ctx.rest.args = []) : ctx.getNextOption = some (ctx, ended) :=
  if_pos (rest_args_eq_nil_iff.mp hargs)

/-- Without a lone `-` in front both readings take the same token. -/
theorem token_noDash {d : Bool} (h : st.NoDash d) : st.token d = st.token false := by
  cases d with
  | false => rfl
  | true =>
      unfold Rest.token
      cases hcluster : st.cluster with
      | cons c rest => rfl
      | nil =>
          have hhead := h rfl hcluster
          cases hargs : st.args with
          | nil => rfl
          | cons arg args =>
              rw [hargs] at hhead
              unfold argToken
              cases arg with
              | nil => rfl
              | cons a arg =>
                  dsimp only
                  by_cases ha : a = dash
                  · rw [if_pos ha, if_pos ha]
                    cases arg with
                    | nil =>
                        rw [ha] at hhead
                        exact absurd rfl hhead
                    | cons c rest => rfl
                  · rw [if_neg ha, if_neg ha]

/-- Arguments found from `i` on stand at `i` or behind it. -/
theorem argToken_position {d : Bool} {args : List CString} {i j : Nat}
    (h : argToken d i args = some (.plain j, st)) : i ≤ j := by
  induction args generalizing i with
  | nil => cases h
  | cons arg args ih =>
      unfold argToken at h
      cases arg with
      | nil =>
          cases h
          exact Nat.le_refl _
      | cons a arg =>
          dsimp only at h
          by_cases ha : a = dash
          · rw [if_pos ha] at h
            cases arg with
            | nil =>
                dsimp only at h
                cases d with
                | true =>
                    cases h
                    exact Nat.le_refl _
                | false =>
                    have hnext := ih h
                    omega
            | cons c rest =>
                dsimp only at h
                by_cases hc : c = dash
                · rw [if_pos hc] at h
                  cases h
                · rw [if_neg hc] at h
                  cases h
          · rw [if_neg ha] at h
            cases h
            exact Nat.le_refl _

theorem plain_of_code (h : (tok.yields options st).1.code = argument) : ∃ i, tok = .plain i := by
  have hoption : ∀ {p}, (match findOption options p with
      | none => (result unknown none, st)
      | some opt =>
          if 0 < opt.argCount ∧ opt.argCount ≤ st.args.length then
            (result opt.shortOpt (some st.position),
              ⟨st.cluster, st.position + opt.argCount, st.args.drop opt.argCount⟩)
          else (result opt.shortOpt none, st)).1.code ≠ argument := by
    intro p
    cases hfind : findOption options p with
    | none => exact (by decide : unknown ≠ argument)
    | some opt =>
        have hne := (findOption_some hfind).2
        dsimp only
        split <;> exact hne
  cases tok with
  | plain i => exact ⟨i, rfl⟩
  | short c => exact absurd h hoption
  | long name => exact absurd h hoption

end Calls

/-! ## §5. All calls. -/

section Runs

variable {d : Bool} {options : List OptionEntry} {st : Rest}

/-- Nothing is left to read without a token. -/
theorem token_nil (h : st.token d = none) : st.cluster = [] := by
  unfold Rest.token at h
  cases hcluster : st.cluster with
  | nil => rfl
  | cons c rest =>
      rw [hcluster] at h
      cases h

theorem token_done (hcluster : st.cluster = []) (hargs : st.args = []) : st.token d = none := by
  unfold Rest.token
  rw [hcluster, hargs]
  rfl

/-- The token of the code is the token of the reading, when no lone `-` is in front. -/
theorem does_next {ctx : Context} {tok : Token} {st : Rest} (hargs : ctx.rest.args ≠ [])
    (hdash : ctx.rest.NoDash d) (htok : ctx.rest.token d = some (tok, st)) :
    Does ctx tok st ctx.getNextOption := by
  have hspec := getNextOption_spec ctx hargs
  rw [← token_noDash hdash, htok] at hspec
  exact hspec

/-- **A reading goes on with its next token**, or that token ended it. -/
theorem reads_cases {rs : List Result} {tok : Token} {st' : Rest} (hreads : Reads d options st rs)
    (htok : st.token d = some (tok, st')) :
    (tok.yields options st').1.code = ended ∧ rs = []
      ∨ (tok.yields options st').1.code ≠ ended
        ∧ ∃ rs', rs = (tok.yields options st').1 :: rs' ∧ Reads d options (tok.yields options st').2 rs' := by
  cases hreads with
  | done hnone =>
      rw [htok] at hnone
      cases hnone
  | ended htok' hcode =>
      rw [htok] at htok'
      cases htok'
      exact Or.inl ⟨hcode, rfl⟩
  | next htok' hcode hrest =>
      rw [htok] at htok'
      cases htok'
      exact Or.inr ⟨hcode, _, rfl, hrest⟩

/-- **A lone `-` that is an argument** is not what the call returns. -/
theorem skipped_dash {ctx ctx' : Context} {code : Byte} (hcluster : ctx.rest.cluster = [])
    (hargs : ctx.rest.args.head? = some [dash]) (hcall : ctx.getNextOption = some (ctx', code)) :
    result code ctx'.currentOptArgPtr ≠ result argument (some ctx.rest.position) := by
  intro heq
  have hcode : code = argument := congrArg Result.code heq
  obtain ⟨args, hcons⟩ := List.head?_eq_some_iff.mp hargs
  -- the code looks for an argument behind the `-`
  have htoken : ctx.rest.token false = argToken false (ctx.rest.position + 1) args := by
    unfold Rest.token
    rw [hcluster, hcons]
    rfl
  have hspec := getNextOption_spec ctx (by rw [hcons]; exact List.cons_ne_nil _ _)
  cases htok : ctx.rest.token false with
  | none =>
      rw [htok] at hspec
      rw [show ctx.getNextOption = none from hspec] at hcall
      cases hcall
  | some r =>
      obtain ⟨tok, st'⟩ := r
      rw [htok] at hspec
      have hdoes : Does ctx tok st' ctx.getNextOption := hspec
      by_cases hfits : tok.Fits ctx.options st'
      · obtain ⟨ctx₁, hnext, hres, _⟩ := hdoes.fits hfits
        rw [hcall] at hnext
        obtain ⟨rfl, hyield⟩ := Prod.mk.inj (Option.some.inj hnext)
        -- so what it returns stands further on
        obtain ⟨j, rfl⟩ := plain_of_code (hyield.symm.trans hcode)
        have hpos := argToken_position (htoken.symm.trans htok)
        rw [← hyield, heq] at hres
        have hj : some ctx.rest.position = some j := congrArg Result.arguments hres
        have hj := Option.some.inj hj
        omega
      · rw [hdoes.overflow hfits] at hcall
        cases hcall

theorem results_succ (n : Nat) (ctx : Context) : results (n + 1) ctx = match ctx.getNextOption with
    | none => none
    | some (ctx, code) =>
        if code = ended then some []
        else (results n ctx).map (fun rs => result code ctx.getOptionArguments :: rs) := rfl

/-- **With a lone `-` in front** the calls do not return the reading that takes it for an
argument. -/
theorem not_reads_dash {n : Nat} {ctx : Context} {rs : List Result}
    (hcluster : ctx.rest.cluster = []) (hhead : ctx.rest.args.head? = some [dash])
    (hresults : results (n + 1) ctx = some rs) : ¬ Reads true ctx.options ctx.rest rs := by
  intro hreads
  obtain ⟨args, hcons⟩ := List.head?_eq_some_iff.mp hhead
  have htok : ctx.rest.token true = some (.plain ctx.rest.position,
      ⟨[], ctx.rest.position + 1, args⟩) := by
    unfold Rest.token
    rw [hcluster, hcons]
    rfl
  cases hcall : ctx.getNextOption with
  | none =>
      rw [results_succ, hcall] at hresults
      cases hresults
  | some r =>
      obtain ⟨ctx', code⟩ := r
      have hskipped := skipped_dash hcluster hhead hcall
      rw [results_succ, hcall] at hresults
      dsimp only at hresults
      cases reads_cases hreads htok with
      | inl hended => exact absurd hended.1 (by decide : argument ≠ LibOpt.ended)
      | inr hnext =>
          obtain ⟨_, rs', rfl, _⟩ := hnext
          by_cases hcode : code = ended
          · rw [if_pos hcode] at hresults
            cases hresults
          · rw [if_neg hcode] at hresults
            obtain ⟨_, _, hcons'⟩ := Option.map_eq_some_iff.mp hresults
            exact hskipped (List.cons.inj hcons').1

/-- **Calls that return the reading** meet the condition. -/
theorem meets_of_results (n : Nat) {ctx : Context} {rs : List Result}
    (hresults : results n ctx = some rs) (hreads : Reads d ctx.options ctx.rest rs) :
    Meets d ctx.options ctx.rest := by
  induction n generalizing ctx rs with
  | zero => cases hresults
  | succ n ih =>
      by_cases hargs : ctx.rest.args = []
      · -- the call returns `-1`, so the reading is over as well
        rw [results_succ, getNextOption_ended hargs] at hresults
        dsimp only at hresults
        rw [if_pos rfl] at hresults
        cases hresults
        cases hreads with
        | done htok => exact .done (token_nil htok) hargs
        | ended htok hcode => exact .lost htok hargs hcode
      · by_cases hdash : ctx.rest.NoDash d
        · cases htok : ctx.rest.token d with
          | none =>
              have hspec := getNextOption_spec ctx hargs
              rw [← token_noDash hdash, htok] at hspec
              rw [results_succ, show ctx.getNextOption = none from hspec] at hresults
              cases hresults
          | some r =>
              obtain ⟨tok, st⟩ := r
              have hdoes := does_next hargs hdash htok
              by_cases hfits : tok.Fits ctx.options st
              · obtain ⟨ctx', hnext, hres, hrest, hoptions⟩ := hdoes.fits hfits
                rw [results_succ, hnext] at hresults
                dsimp only at hresults
                cases reads_cases hreads htok with
                | inl hended => exact .ended htok hargs hdash hfits hended.1
                | inr hnext =>
                    -- the reading goes on with what the call has left
                    obtain ⟨hcode, rs', rfl, hrest'⟩ := hnext
                    rw [if_neg hcode] at hresults
                    obtain ⟨_, hrs', hcons⟩ := Option.map_eq_some_iff.mp hresults
                    rw [(List.cons.inj hcons).2] at hrs'
                    rw [← hrest, ← hoptions] at hrest'
                    have hmeets := ih hrs' hrest'
                    rw [hrest, hoptions] at hmeets
                    exact .next htok hargs hdash hfits hcode hmeets
              · rw [results_succ, hdoes.overflow hfits] at hresults
                cases hresults
        · -- the reading has the lone dash, the call has not
          unfold Rest.NoDash at hdash
          push Not at hdash
          obtain ⟨rfl, hcluster, hhead⟩ := hdash
          exact absurd hreads (not_reads_dash hcluster hhead hresults)

/-- **A command line that meets the condition** is read to its end. -/
theorem results_of_meets (hmeets : Meets d options st) (ctx : Context) (hrest : ctx.rest = st)
    (hoptions : ctx.options = options) : ∃ n rs, results n ctx = some rs ∧ Reads d options st rs := by
  induction hmeets generalizing ctx with
  | done hcluster hargs =>
      refine ⟨1, [], ?_, .done (token_done hcluster hargs)⟩
      rw [results_succ, getNextOption_ended (by rw [hrest]; exact hargs)]
      exact if_pos rfl
  | lost htok hargs hcode =>
      refine ⟨1, [], ?_, .ended htok hcode⟩
      rw [results_succ, getNextOption_ended (by rw [hrest]; exact hargs)]
      exact if_pos rfl
  | ended htok hargs hdash hfits hcode =>
      subst hrest hoptions
      obtain ⟨ctx', hnext, _⟩ := (does_next hargs hdash htok).fits hfits
      refine ⟨1, [], ?_, .ended htok hcode⟩
      rw [results_succ, hnext]
      exact if_pos hcode
  | next htok hargs hdash hfits hcode _ ih =>
      subst hrest hoptions
      obtain ⟨ctx', hnext, hres, hrest', hoptions'⟩ := (does_next hargs hdash htok).fits hfits
      obtain ⟨n, rs, hresults, hreads⟩ := ih ctx' hrest' hoptions'
      refine ⟨n + 1, _, ?_, .next htok hcode hreads⟩
      rw [results_succ, hnext]
      dsimp only
      rw [if_neg hcode, hresults, Option.map_some]
      unfold Context.getOptionArguments
      rw [hres]

end Runs

/-- **The calls return the reading of the command line** exactly when it meets the condition,
whether a lone `-` is an argument or a cluster of no options. -/
theorem libopt_reads_iff (dashIsArgument : Bool) (options : List OptionEntry) (argv : List CString) :
    Parses dashIsArgument options argv
      ↔ Meets dashIsArgument options (startArgParse options argv).rest := by
  constructor
  · intro ⟨n, rs, hresults, hreads⟩
    exact meets_of_results n hresults hreads
  · intro hmeets
    exact results_of_meets hmeets _ rfl rfl

/-- A cluster at the end of the command line: `prog -ab` yields `a` and then `-1`. -/
theorem last_cluster_lost :
    ¬ ∀ (options : List OptionEntry) (argv : List CString), argv ≠ [] →
      ∃ dashIsArgument, Parses dashIsArgument options argv := by
  intro hall
  obtain ⟨d, n, rs, hresults, hreads⟩ :=
    hall [⟨97, [97], 0⟩, ⟨98, [98], 0⟩] [[112], [45, 97, 98]] (List.cons_ne_nil _ _)
  have hmeets := meets_of_results n hresults hreads
  cases hmeets with
  | done _ hargs => cases hargs
  | lost _ hargs _ => cases hargs
  | ended htok _ _ _ hcode =>
      cases htok
      exact absurd hcode (by decide)
  | next htok _ _ _ _ hrest =>
      cases htok
      -- the second letter is left, and no argument
      cases hrest with
      | done hcluster _ => cases hcluster
      | lost htok _ hcode =>
          cases htok
          exact absurd hcode (by decide)
      | ended _ hargs _ _ _ => exact hargs rfl
      | next _ hargs _ _ _ _ => exact hargs rfl

end MierOS.Userspace.LibOpt
