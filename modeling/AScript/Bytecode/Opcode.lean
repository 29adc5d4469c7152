/-! The instruction set (`vm/opcode.rs`): opcode bytes and inline operand widths. -/

namespace AScript.Bytecode

inductive Op
  | const
  | nil
  | true
  | false
  | pop
  | dup
  | swap
  | rot3
  | getLocal
  | setLocal
  | getUpvalue
  | setUpvalue
  | closeUpvalue
  | getGlobal
  | defineGlobal
  | setGlobal
  | immutableError
  | add
  | sub
  | mul
  | div
  | mod
  | pow
  | neg
  | not
  | eq
  | ne
  | lt
  | le
  | gt
  | ge
  | range
  | rangeInclusive
  | checkNumbers
  | rangeStepValue
  | rangeResolveStep
  | rangeHasNext
  | jump
  | jumpIfFalse
  | jumpIfTrue
  | jumpIfNotNil
  | loop
  | jumpIfArgSupplied
  | checkParam
  | call
  | callMethod
  | callMethodSpread
  | «return»
  | closure
  | newArray
  | newObject
  | newMap
  | mapEntry
  | spread
  | spreadArgs
  | appendArray
  | appendObject
  | spreadObject
  | callSpread
  | getIndex
  | setIndex
  | getProp
  | setProp
  | getPropOpt
  | «class»
  | defineInterface
  | method
  | getSuper
  | instanceOf
  | instanceOfType
  | template
  | await
  | yield
  | makeGenerator
  | propagate
  | unwrap
  | «import»
  | getIter
  | iterNext
  | iterClose
  | iterSnapshot
  | arrayLen
  | getLocalCell
  | setLocalCell
  | freshCell
  | checkArrayDestructure
  | checkObjectDestructure
  | arrayElem
  | objectKey
  | arrayRest
  | objectRest
  | matchArray
  | matchObject
  | matchHasKey
  | matchRange
  | matchNoArm
  | defineExport
  | bitAnd
  | bitOr
  | bitXor
  | shl
  | shr
  | bitNot
  | wrapAdd
  | wrapSub
  | wrapMul
  | checkLocal
  | matchVariant
  | variantElem
  | variantField
  | matchVariantArity
  | matchVariantHasField
  | callNamed
  | appendNamedArg
  | appendPosArg
  | appendSpreadArg
  | callNamedSpread
  | «break»
  | deferPush
  | deferPushMethod
  | callElided
  deriving DecidableEq

namespace Op

def all : List Op :=
  [.const, .nil, .true, .false, .pop, .dup, .swap, .rot3, .getLocal, .setLocal, .getUpvalue,
    .setUpvalue, .closeUpvalue, .getGlobal, .defineGlobal, .setGlobal, .immutableError, .add,
    .sub, .mul, .div, .mod, .pow, .neg, .not, .eq, .ne, .lt, .le, .gt, .ge, .range,
    .rangeInclusive, .checkNumbers, .rangeStepValue, .rangeResolveStep, .rangeHasNext, .jump,
    .jumpIfFalse, .jumpIfTrue, .jumpIfNotNil, .loop, .jumpIfArgSupplied, .checkParam, .call,
    .callMethod, .callMethodSpread, .«return», .closure, .newArray, .newObject, .newMap,
    .mapEntry, .spread, .spreadArgs, .appendArray, .appendObject, .spreadObject, .callSpread,
    .getIndex, .setIndex, .getProp, .setProp, .getPropOpt, .«class», .defineInterface,
    .method, .getSuper, .instanceOf, .instanceOfType, .template, .await, .yield,
    .makeGenerator, .propagate, .unwrap, .«import», .getIter, .iterNext, .iterClose,
    .iterSnapshot, .arrayLen, .getLocalCell, .setLocalCell, .freshCell,
    .checkArrayDestructure, .checkObjectDestructure, .arrayElem, .objectKey, .arrayRest,
    .objectRest, .matchArray, .matchObject, .matchHasKey, .matchRange, .matchNoArm,
    .defineExport, .bitAnd, .bitOr, .bitXor, .shl, .shr, .bitNot, .wrapAdd, .wrapSub,
    .wrapMul, .checkLocal, .matchVariant, .variantElem, .variantField, .matchVariantArity,
    .matchVariantHasField, .callNamed, .appendNamedArg, .appendPosArg, .appendSpreadArg,
    .callNamedSpread, .«break», .deferPush, .deferPushMethod, .callElided]

def fromU8 (b : UInt8) : Option Op := all[b.toNat]?

def operandWidth : Op → Nat
  | .rangeStepValue | .rangeResolveStep | .rangeHasNext | .call | .matchRange | .callElided => 1
  | .const | .getLocal | .setLocal | .getUpvalue | .setUpvalue | .closeUpvalue | .getGlobal
  | .setGlobal | .immutableError | .jump | .jumpIfFalse | .jumpIfTrue | .jumpIfNotNil | .loop
  | .checkParam | .callMethodSpread | .closure | .newArray | .newObject | .getProp | .setProp
  | .getPropOpt | .«class» | .defineInterface | .method | .getSuper | .instanceOfType
  | .template | .«import» | .getLocalCell | .setLocalCell | .freshCell | .arrayElem
  | .objectKey | .arrayRest | .objectRest | .matchHasKey | .defineExport | .checkLocal
  | .matchVariant | .variantElem | .variantField | .matchVariantArity | .matchVariantHasField
  | .appendNamedArg | .deferPush => 2
  | .defineGlobal | .callMethod | .matchArray | .callNamed => 3
  | .jumpIfArgSupplied | .deferPushMethod => 4
  | _ => 0

end Op
end AScript.Bytecode
