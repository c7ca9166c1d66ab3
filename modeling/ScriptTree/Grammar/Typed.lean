import ScriptTree.Grammar.Basic

/-! The grammar of the typed dialect. -/
namespace ScriptTree.Grammar

/-- The kinds of the typed dialect in the order of their numbers. -/
def typedKinds : List Kind := List.flatten
  [Kind.tokens ["end"],
   Kind.nodes ["identifier", "hash_bang_line"],
   Kind.tokens ["export", "*", "default", "type", "=", "as", "namespace", "\x7b", ",", "\x7d",
     "typeof", "import", "from", "with", "assert", "var", "let", "const", "using", "await", "!",
     "else", "if", "switch", "for", "(", ";", ")", "of", "in", "while", "do", "try", "break",
     "continue", "debugger", "return", "throw", ":", "case", "catch", "finally", "yield", "[", "]",
     ".", "class", "async", "function", "=>", "?.", "new", "+=", "-=", "*=", "/=", "%=", "^=", "&=",
     "|=", ">>=", ">>>=", "<<=", "**=", "&&=", "||=", "??=", "...", "&&", "||", ">>", ">>>", "<<",
     "&", "^", "|", "+", "-", "/", "%", "**", "<", "<=", "==", "===", "!=", "!==", ">=", ">", "??",
     "instanceof", "~", "void", "delete", "++", "--", "\x22", "\x27"],
   Kind.nodes ["string_fragment", "string_fragment", "escape_sequence", "comment"],
   Kind.tokens ["\x60", "$\x7b", "/"],
   Kind.nodes ["regex_pattern", "regex_flags", "number", "private_property_identifier"],
   Kind.tokens ["target", "meta"],
   Kind.nodes ["this", "super", "true", "false", "null", "undefined"],
   Kind.tokens ["@", "static", "readonly", "get", "set", "?", "declare", "public", "private",
     "protected", "override", "module", "any", "number", "boolean", "string", "symbol", "object",
     "abstract", "accessor", "satisfies", "require", "extends", "implements", "global", "interface",
     "enum", "-?:", "+?:", "?:", "asserts", "infer", "is", "keyof", "unique symbol", "unknown",
     "never", "\x7b|", "|\x7d", "_automatic_semicolon"],
   Kind.nodes ["string_fragment"],
   Kind.tokens ["?"],
   Kind.nodes ["html_comment", "jsx_text"],
   Kind.tokens ["_function_signature_automatic_semicolon", "__error_recovery"],
   Kind.nodes ["program", "export_statement", "namespace_export", "export_clause",
     "export_specifier"],
   Kind.tokens ["_module_export_name", "declaration"],
   Kind.nodes ["import", "import_statement", "import_clause"],
   Kind.tokens ["_from_clause"],
   Kind.nodes ["namespace_import", "named_imports", "import_specifier", "import_attribute"],
   Kind.tokens ["statement"],
   Kind.nodes ["expression_statement", "variable_declaration", "lexical_declaration",
     "using_declaration", "variable_declarator", "statement_block", "else_clause", "if_statement",
     "switch_statement", "for_statement", "for_in_statement"],
   Kind.tokens ["_for_header"],
   Kind.nodes ["while_statement", "do_statement", "try_statement", "with_statement",
     "break_statement", "continue_statement", "debugger_statement", "return_statement",
     "throw_statement", "empty_statement", "labeled_statement", "switch_body", "switch_case",
     "switch_default", "catch_clause", "finally_clause", "parenthesized_expression"],
   Kind.tokens ["expression", "primary_expression"],
   Kind.nodes ["yield_expression", "object", "object_pattern", "assignment_pattern",
     "object_assignment_pattern", "array", "array_pattern", "nested_identifier", "class",
     "class_declaration", "class_heritage", "function_expression", "function_declaration",
     "generator_function", "generator_function_declaration", "arrow_function"],
   Kind.tokens ["_call_signature", "_formal_parameter"],
   Kind.nodes ["optional_chain", "call_expression", "new_expression", "await_expression",
     "member_expression", "subscript_expression", "assignment_expression"],
   Kind.tokens ["_augmented_assignment_lhs"],
   Kind.nodes ["augmented_assignment_expression"],
   Kind.tokens ["_initializer", "_destructuring_pattern"],
   Kind.nodes ["spread_element", "ternary_expression", "binary_expression", "unary_expression",
     "update_expression", "sequence_expression", "string", "template_string",
     "template_substitution", "regex", "meta_property", "arguments", "decorator",
     "member_expression", "call_expression", "class_body", "formal_parameters",
     "class_static_block"],
   Kind.tokens ["pattern"],
   Kind.nodes ["rest_pattern", "method_definition", "pair", "pair_pattern"],
   Kind.tokens ["_property_name"],
   Kind.nodes ["computed_property_name", "public_field_definition"],
   Kind.tokens ["_import_identifier"],
   Kind.nodes ["non_null_expression", "method_signature", "abstract_method_signature",
     "function_signature", "parenthesized_expression", "type_assertion", "as_expression",
     "satisfies_expression", "instantiation_expression", "import_require_clause", "extends_clause"],
   Kind.tokens ["_extends_clause_single"],
   Kind.nodes ["implements_clause", "ambient_declaration", "abstract_class_declaration", "module",
     "internal_module"],
   Kind.tokens ["_module"],
   Kind.nodes ["import_alias", "nested_type_identifier", "interface_declaration",
     "extends_type_clause", "enum_declaration", "enum_body", "enum_assignment",
     "type_alias_declaration", "accessibility_modifier", "override_modifier", "required_parameter",
     "optional_parameter"],
   Kind.tokens ["_parameter_name"],
   Kind.nodes ["omitting_type_annotation", "adding_type_annotation", "opting_type_annotation",
     "type_annotation", "member_expression", "call_expression", "asserts", "asserts_annotation"],
   Kind.tokens ["type"],
   Kind.nodes ["required_parameter", "optional_parameter", "optional_type", "rest_type"],
   Kind.tokens ["_tuple_type_member"],
   Kind.nodes ["constructor_type"],
   Kind.tokens ["primary_type"],
   Kind.nodes ["template_type", "template_literal_type", "infer_type", "conditional_type",
     "generic_type", "type_predicate", "type_predicate_annotation", "member_expression",
     "subscript_expression", "call_expression", "instantiation_expression", "type_query",
     "index_type_query", "lookup_type", "mapped_type_clause", "literal_type", "unary_expression",
     "existential_type", "flow_maybe_type", "parenthesized_type", "predefined_type",
     "type_arguments", "object_type", "call_signature", "property_signature", "type_parameters",
     "type_parameter", "default_type", "constraint", "construct_signature", "index_signature",
     "array_type", "tuple_type", "readonly_type", "union_type", "intersection_type",
     "function_type"],
   Kind.tokens ["program_repeat1", "export_statement_repeat1", "export_clause_repeat1",
     "named_imports_repeat1", "variable_declaration_repeat1", "switch_body_repeat1",
     "object_repeat1", "object_pattern_repeat1", "array_repeat1", "array_pattern_repeat1",
     "sequence_expression_repeat1", "string_repeat1", "string_repeat2", "template_string_repeat1",
     "class_body_repeat1", "formal_parameters_repeat1", "extends_clause_repeat1",
     "implements_clause_repeat1", "extends_type_clause_repeat1", "enum_body_repeat1",
     "template_literal_type_repeat1", "object_type_repeat1", "type_parameters_repeat1",
     "tuple_type_repeat1"],
   Kind.nodes ["interface_body", "property_identifier", "shorthand_property_identifier",
     "shorthand_property_identifier_pattern", "statement_identifier", "this_type",
     "type_identifier"]]

def typed : Grammar := ofKinds typedKinds

end ScriptTree.Grammar
