import ShaderPress.Token.Basic

/-! # Reserved identifiers

Names that are never changed and that no generated name may take: the words of the
shading language, accessors, register names, and names with an affix that the
platform owns.  All of these look at a name without its sigil.
-/
namespace ShaderPress.Ident

/-- Keywords, built-in functions, layout qualifiers and preprocessor words. -/
def keywords : List String :=
  ["EmitStreamVertex", "EmitVertex", "EndPrimitive", "EndStreamPrimitive", "__VERSION__",
   "__pixel_localEXT", "__pixel_local_inEXT", "__pixel_local_outEXT", "abs", "acos", "acosh",
   "all", "allInvocations", "allInvocationsEqual", "any", "anyInvocation", "asin", "asinh",
   "atan", "atanh", "atomicAdd", "atomicAnd", "atomicCompSwap", "atomicCounter",
   "atomicCounterAdd", "atomicCounterAnd", "atomicCounterCompSwap", "atomicCounterDecrement",
   "atomicCounterExchange", "atomicCounterIncrement", "atomicCounterMax", "atomicCounterMin",
   "atomicCounterOr", "atomicCounterSubtract", "atomicCounterXor", "atomicExchange", "atomicMax",
   "atomicMin", "atomicOr", "atomicXor", "barrier", "beginFragmentShaderOrderingINTEL",
   "beginInvocationInterlockARB", "beginInvocationInterlockNV", "binding", "bitCount",
   "bitfieldExtract", "bitfieldInsert", "bitfieldReverse", "blend_support_all_equations",
   "blend_support_colorburn", "blend_support_colordodge", "blend_support_darken",
   "blend_support_difference", "blend_support_exclusion", "blend_support_hardlight",
   "blend_support_lighten", "blend_support_multiply", "blend_support_overlay",
   "blend_support_screen", "blend_support_softlight", "bool", "break", "buffer", "bvec2", "bvec3",
   "bvec4", "case", "ceil", "centroid", "clamp", "coherent", "const", "constant_id", "continue",
   "cos", "cosh", "cross", "dFdx", "dFdxCoarse", "dFdxFine", "dFdy", "dFdyCoarse", "dFdyFine",
   "default", "defined", "degrees", "determinant", "discard", "distance", "do", "dot", "elif",
   "else", "enable", "endInvocationInterlockARB", "endInvocationInterlockNV", "endif", "equal",
   "exp", "exp2", "extension", "faceforward", "false", "findLSB", "findMSB", "flat", "float",
   "floatBitsToInt", "floatBitsToUint", "floor", "fma", "for", "fract", "frexp", "ftransform",
   "fwidth", "fwidthCoarse", "fwidthFine", "greaterThan", "greaterThanEqual",
   "groupMemoryBarrier", "highp", "if", "iimage2D", "image2D", "imageAtomicAdd", "imageAtomicAnd",
   "imageAtomicCompSwap", "imageAtomicExchange", "imageAtomicMax", "imageAtomicMin",
   "imageAtomicOr", "imageAtomicXor", "imageLoad", "imageSamples", "imageSize", "imageStore",
   "imulExtended", "in", "inout", "input_attachment_index", "int", "intBitsToFloat",
   "interpolateAtCentroid", "interpolateAtOffset", "interpolateAtSample", "invariant", "inverse",
   "inversesqrt", "isampler2D", "isampler2DArray", "isampler3D", "isamplerCube", "isinf", "isnan",
   "ivec2", "ivec3", "ivec4", "layout", "ldexp", "length", "lessThan", "lessThanEqual",
   "location", "log", "log2", "lowp", "main", "mat2", "mat2x2", "mat2x3", "mat2x4", "mat3",
   "mat3x2", "mat3x3", "mat3x4", "mat4", "mat4x2", "mat4x3", "mat4x4", "matrixCompMult", "max",
   "mediump", "memoryBarrier", "memoryBarrierAtomicCounter", "memoryBarrierBuffer",
   "memoryBarrierImage", "memoryBarrierShared", "min", "mix", "mod", "modf", "noise1", "noise2",
   "noise3", "noise4", "noperspective", "normalize", "not", "notEqual", "out", "outerProduct",
   "packDouble2x32", "packHalf2x16", "packSnorm2x16", "packSnorm4x8", "packUnorm2x16",
   "packUnorm4x8", "pixelLocalLoadANGLE", "pixelLocalStoreANGLE", "pow", "pragma", "precision",
   "r16f", "r32f", "r32ui", "radians", "readonly", "reflect", "refract", "require", "return",
   "rg16f", "rgb_2_yuv", "rgba8", "rgba8i", "rgba8ui", "round", "roundEven", "sampler",
   "sampler2D", "sampler2DArray", "sampler2DArrayShadow", "sampler2DShadow", "sampler3D",
   "samplerCube", "samplerCubeShadow", "set", "shadow1D", "shadow1DLod", "shadow1DProj",
   "shadow1DProjLod", "shadow2D", "shadow2DEXT", "shadow2DLod", "shadow2DProj", "shadow2DProjEXT",
   "shadow2DProjLod", "sign", "sin", "sinh", "smooth", "smoothstep", "sqrt", "std140", "std430",
   "step", "struct", "subpassInput", "subpassLoad", "switch", "tan", "tanh", "texelFetch",
   "texelFetchOffset", "texture", "texture1D", "texture1DLod", "texture1DProj",
   "texture1DProjLod", "texture2D", "texture2DGradEXT", "texture2DLod", "texture2DLodEXT",
   "texture2DProj", "texture2DProjGradEXT", "texture2DProjLod", "texture2DProjLodEXT",
   "texture2DRect", "texture2DRectProj", "texture3D", "texture3DLod", "texture3DProj",
   "texture3DProjLod", "textureCube", "textureCubeGradEXT", "textureCubeLod", "textureCubeLodEXT",
   "textureGather", "textureGatherOffset", "textureGatherOffsets", "textureGrad",
   "textureGradOffset", "textureLod", "textureLodOffset", "textureOffset", "textureProj",
   "textureProjGrad", "textureProjGradOffset", "textureProjLod", "textureProjLodOffset",
   "textureProjOffset", "textureQueryLevels", "textureQueryLod", "textureSamples", "textureSize",
   "textureVideoWEBGL", "transpose", "true", "trunc", "uaddCarry", "uimage2D", "uint",
   "uintBitsToFloat", "umulExtended", "uniform", "unpackDouble2x32", "unpackHalf2x16",
   "unpackSnorm2x16", "unpackSnorm4x8", "unpackUnorm2x16", "unpackUnorm4x8", "usampler2D",
   "usampler2DArray", "usampler3D", "usamplerCube", "usubBorrow", "usubpassInput", "utexture2D",
   "uvec2", "uvec3", "uvec4", "vec2", "vec3", "vec4", "void", "volatile", "while", "yuv_2_rgb"]

def isKeyword (name : Ident) : Bool := keywords.contains (String.ofList name)

def components : List Char := ['x', 'y', 'z', 'w']

def isSwizzle (name : Ident) : Bool :=
  1 ≤ name.length && name.length ≤ 4 && name.all (components.contains ·)

def registerBases : List Char := ['t', 's', 'u', 'b']

def isRegisterBase : Ident → Bool
  | [c] => registerBases.contains c
  | _ => false

/-- A register letter and then digits only, at least one. -/
def isRegister : Ident → Bool
  | c :: s => registerBases.contains c && !s.isEmpty && s.all Char.isDigit
  | [] => false

def ownedPrefixes : List (List Char) :=
  [['g', 'l', '_'], ['G', 'L', '_'],
   ['_', '_', 'p', 'i', 'x', 'e', 'l', '_', 'l', 'o', 'c', 'a', 'l']]

def ownedSuffixes : List (List Char) := [['A', 'N', 'G', 'L', 'E']]

def hasOwnedAffix (name : Ident) : Bool :=
  ownedPrefixes.any (·.isPrefixOf name) || ownedSuffixes.any (·.isSuffixOf name)

/-- A name that is neither changed nor generated. -/
def isReserved (name : Ident) : Bool :=
  isKeyword name || isSwizzle name || isRegisterBase name || isRegister name || hasOwnedAffix name

end ShaderPress.Ident
