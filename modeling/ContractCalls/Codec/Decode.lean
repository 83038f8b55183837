import ContractCalls.Codec.Reader

/-!
# Decoding values

Decoding takes all bytes of a value, nested or top-level. At the top level short integers are
widened, a list holds as many items as its bytes make, and an empty byte string is an absent
`Option`. A list of arguments is decoded by position: an absent value may end it, and a `variadic`
takes all that is left.
-/

namespace ContractCalls.Value

/-- The value of a type that fills the bytes in its nested form. -/
def decodeNested (type : Ty) (bs : Bytes) : Except CodecError Value :=
  match read type bs with
  | (.ok v, []) => .ok v
  | (.ok _, rest) => .error (.trailingBytes rest.length type)
  | (.error e, _) => .error e

/-- The value of a primitive type that is one argument. -/
def decodeTopPrimitive (p : Primitive) (bs : Bytes) : Except CodecError Value :=
  match p with
  | .int t =>
    if t.bytes < bs.length then .error (.overflow (.primitive p) t.bytes)
    else .ok (.int t (.ofBytes t (Bytes.widen t.signed t.bytes bs)))
  | .bool =>
    match bs with
    | [] => boolOfByte (.primitive p) 0
    | [b] => boolOfByte (.primitive p) b
    | _ => .error (.overflow (.primitive p) 1)
  | .address =>
    if 32 < bs.length then .error (.trailingBytes (bs.length - 32) (.primitive p))
    else decodeNested (.primitive p) bs
  | .hash =>
    if 32 < bs.length then .error (.trailingBytes (bs.length - 32) (.primitive p))
    else decodeNested (.primitive p) bs
  | p => ofPayload p bs

/-- The items that fill the bytes, for bytes no longer than `fuel`. An item without bytes leaves
their number undetermined, so it is refused. -/
def readItemsToEnd (type : Ty) (item : Reader Value) :
    (fuel : Nat) → Bytes → Except CodecError (List Value)
  | _, [] => .ok []
  | 0, bs => .error (.trailingBytes bs.length type)
  | fuel + 1, bs =>
    match item bs with
    | (.ok v, rest) =>
      if rest.length < bs.length then
        return v :: (← readItemsToEnd type item fuel rest)
      else .error (.trailingBytes bs.length type)
    | (.error e, _) => .error e

/-- The value of a type that is one argument. -/
def decodeTop : Ty → Bytes → Except CodecError Value
  | .primitive p, bs => decodeTopPrimitive p bs
  | .generic g params, bs =>
    match g, params with
    | .option, p :: _ =>
      match bs with
      | [] => .ok (.option p none)
      | b :: bs => return .option p (some (← decodeTop p (b :: bs)))
    | .optional, p :: _ =>
      match bs with
      | [] => .ok (.optional p none)
      | b :: bs => return .optional p (some (← decodeTop p (b :: bs)))
    | .list, p :: ps =>
      return .list p (← readItemsToEnd (.generic .list (p :: ps)) (read p) bs.length bs)
    | .variadic, params => .error (.multiArgument (.generic .variadic params))
    | .tuple, params => decodeNested (.tuple params) bs
    | g, [] => .error (.underflow (.generic g []) 1 0)
  | t, bs => decodeNested t bs

/-- The absent value of a type that allows one. -/
def absent? (t : Ty) : Option Value :=
  match t.firstParameter? .option with
  | some inner => some (absent inner)
  | none => (t.firstParameter? .optional).map absentOptional

/-- The value of a type for which no argument is left, where `index` types stand before it. -/
def decodeAbsent (index : Nat) (t : Ty) : Except CodecError Value :=
  match absent? t with
  | some v => .ok v
  | none => .error (.missingArgument index t)

/-- The values of types, where `index` types stand before them. -/
def decodeArgumentsFrom (index : Nat) : List Ty → List Bytes → Except CodecError (List Value)
  | [], [] => .ok []
  | [], args => .error (.tooManyArguments args.length)
  | t :: ts, args =>
    match t.firstParameter? .variadic with
    | some element => do
      let items ← args.mapM (decodeTop element)
      return .variadic element items :: (← decodeArgumentsFrom (index + 1) ts [])
    | none =>
      match args with
      | arg :: args => do
        let v ← decodeTop t arg
        return v :: (← decodeArgumentsFrom (index + 1) ts args)
      | [] => do
        let v ← decodeAbsent index t
        return v :: (← decodeArgumentsFrom (index + 1) ts [])

/-- The values of a list of types that a list of arguments makes. -/
def decodeArguments (types : List Ty) (args : List Bytes) : Except CodecError (List Value) :=
  decodeArgumentsFrom 0 types args

end ContractCalls.Value
