import Overload.Value.Basic

/-! Names that values answer to without being given an attribute. -/

namespace Overload.Value

def objectNames : List String :=
  ["__class__", "__delattr__", "__dir__", "__doc__", "__eq__", "__format__", "__ge__",
   "__getattribute__", "__getstate__", "__gt__", "__hash__", "__init__", "__init_subclass__",
   "__le__", "__lt__", "__ne__", "__new__", "__reduce__", "__reduce_ex__", "__repr__",
   "__setattr__", "__sizeof__", "__str__", "__subclasshook__"]

def functionNames : List String :=
  ["__annotations__", "__builtins__", "__call__", "__closure__", "__code__", "__defaults__",
   "__dict__", "__get__", "__globals__", "__kwdefaults__", "__module__", "__name__",
   "__qualname__"]

def partialNames : List String :=
  ["__call__", "__class_getitem__", "__dict__", "__module__", "__setstate__",
   "__vectorcalloffset__", "args", "func", "keywords"]

def nativeNames : List String :=
  ["__call__", "__module__", "__name__", "__qualname__", "__self__", "__text_signature__"]

def classNames : List String :=
  ["__annotations__", "__base__", "__bases__", "__basicsize__", "__call__", "__dict__",
   "__dictoffset__", "__flags__", "__instancecheck__", "__itemsize__", "__module__", "__mro__",
   "__name__", "__or__", "__prepare__", "__qualname__", "__ror__", "__subclasscheck__",
   "__subclasses__", "__text_signature__", "__weakrefoffset__", "mro"]

def instanceNames : List String := ["__dict__", "__module__", "__weakref__"]

def dictNames : List String :=
  ["__class_getitem__", "__contains__", "__delitem__", "__getitem__", "__ior__", "__iter__",
   "__len__", "__or__", "__reversed__", "__ror__", "__setitem__", "clear", "copy", "fromkeys",
   "get", "items", "keys", "pop", "popitem", "setdefault", "update", "values"]

def listNames : List String :=
  ["__add__", "__class_getitem__", "__contains__", "__delitem__", "__getitem__", "__iadd__",
   "__imul__", "__iter__", "__len__", "__mul__", "__reversed__", "__rmul__", "__setitem__",
   "append", "clear", "copy", "count", "extend", "index", "insert", "pop", "remove", "reverse",
   "sort"]

def tupleNames : List String :=
  ["__add__", "__class_getitem__", "__contains__", "__getitem__", "__getnewargs__", "__iter__",
   "__len__", "__mul__", "__rmul__", "count", "index"]

def intNames : List String :=
  ["__abs__", "__add__", "__and__", "__bool__", "__ceil__", "__divmod__", "__float__",
   "__floor__", "__floordiv__", "__getnewargs__", "__index__", "__int__", "__invert__",
   "__lshift__", "__mod__", "__mul__", "__neg__", "__or__", "__pos__", "__pow__", "__radd__",
   "__rand__", "__rdivmod__", "__rfloordiv__", "__rlshift__", "__rmod__", "__rmul__", "__ror__",
   "__round__", "__rpow__", "__rrshift__", "__rshift__", "__rsub__", "__rtruediv__", "__rxor__",
   "__sub__", "__truediv__", "__trunc__", "__xor__", "as_integer_ratio", "bit_count",
   "bit_length", "conjugate", "denominator", "from_bytes", "imag", "numerator", "real",
   "to_bytes"]

def textNames : List String :=
  ["__add__", "__contains__", "__getitem__", "__getnewargs__", "__iter__", "__len__", "__mod__",
   "__mul__", "__rmod__", "__rmul__", "capitalize", "casefold", "center", "count", "encode",
   "endswith", "expandtabs", "find", "format", "format_map", "index", "isalnum", "isalpha",
   "isascii", "isdecimal", "isdigit", "isidentifier", "islower", "isnumeric", "isprintable",
   "isspace", "istitle", "isupper", "join", "ljust", "lower", "lstrip", "maketrans", "partition",
   "removeprefix", "removesuffix", "replace", "rfind", "rindex", "rjust", "rpartition", "rsplit",
   "rstrip", "split", "splitlines", "startswith", "strip", "swapcase", "title", "translate",
   "upper", "zfill"]

def builtinNames (cls : String) : List String :=
  if cls = "dict" then dictNames
  else if cls = "list" then listNames
  else if cls = "tuple" then tupleNames
  else if cls = "int" then intNames
  else if cls = "str" then textNames
  else []

def builtins : List String := ["dict", "list", "tuple", "int", "str"]

def inheritedNames (c : Class) : List String :=
  (builtins.filter fun b => c.derives (.builtin b)).flatMap builtinNames

def dataNames : List String :=
  ["__annotations__", "__bases__", "__basicsize__", "__builtins__", "__closure__", "__code__",
   "__defaults__", "__dict__", "__dictoffset__", "__doc__", "__flags__", "__globals__",
   "__itemsize__", "__kwdefaults__", "__module__", "__mro__", "__name__", "__qualname__",
   "__self__", "__text_signature__", "__vectorcalloffset__", "__weakref__",
   "__weakrefoffset__", "args", "denominator", "imag", "keywords", "numerator", "real"]

def ownNames : Value → List String
  | .undefined | .null | .bool _ | .num (.float _) => objectNames
  | .num (.int _) => objectNames ++ intNames
  | .str _ => objectNames ++ textNames
  | .list _ _ => objectNames ++ listNames
  | .tuple _ _ => objectNames ++ tupleNames
  | .dict _ _ => objectNames ++ dictNames
  | .function _ name isPlain _ =>
    objectNames ++ (if isPlain then functionNames else if name.isNone then partialNames
      else nativeNames)
  | .type c =>
    objectNames ++ classNames ++ inheritedNames c ++
      (match c with
        | .builtin _ => []
        | .user _ _ _ _ _ => instanceNames)
  | .object _ c _ _ =>
    objectNames ++ instanceNames ++ inheritedNames c ++ (if c.hasCall then ["__call__"] else [])

end Overload.Value
